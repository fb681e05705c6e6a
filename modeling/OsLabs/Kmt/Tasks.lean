import Mathlib.Data.Finset.Card
import Mathlib.Data.List.Nodup
import OsLabs.Kmt.Scheduler

/-!
# The task table

`kmt_create` tests `cnt_tasks` without the lock and looks for a slot under it; the
calls in flight are kept apart by how far they got.
-/

namespace OsLabs.Kmt
open Function

variable {Cpu Sem Ctx : Type} [DecidableEq Cpu]

/-- `kmt_create` after the stack is allocated and before the lock. -/
def kmtCreateInit (k : Kernel Cpu Sem Ctx) (task : TaskPtr Cpu) (context : Ctx) : Kernel Cpu Sem Ctx :=
  k.setTask task ({ · with run := 0, sleep := 0, context := context })

/-- The section of `kmt_create` under `lock_kmt`. -/
def kmtCreateLocked (k : Kernel Cpu Sem Ctx) (task : TaskPtr Cpu) (rand : Nat) : Kernel Cpu Sem Ctx :=
  let seed := rand % maxTask
  let i := ((List.range maxTask).find? fun i => (k.tasks ((seed + i) % maxTask)).isNone).getD maxTask
  let slot := (seed + i) % maxTask
  { k.setTask task ({ · with id := slot }) with
    cntTasks := k.cntTasks + 1
    tasks := update k.tasks slot (some task) }

theorem kmtCreate_eq (k : Kernel Cpu Sem Ctx) (task : TaskPtr Cpu) (context : Ctx) (rand : Nat) :
    kmtCreate k task context rand = kmtCreateLocked (kmtCreateInit k task context) task rand := rfl

/-- The section of `kmt_teardown` under `lock_kmt`; the stack is freed before it. -/
def kmtTeardown (k : Kernel Cpu Sem Ctx) (task : TaskPtr Cpu) : Kernel Cpu Sem Ctx :=
  { k with cntTasks := k.cntTasks - 1, tasks := update k.tasks (k.task task).id none }

namespace Tasks

/-- The kernel, the calls of `kmt_create` past the test and past the allocation, the tasks that were created and
not passed to `kmt_teardown` since, the calls of it before their section, and whether a create replaced an entry. -/
structure State (Cpu Sem Ctx : Type) where
  kernel : Kernel Cpu Sem Ctx
  tested : List (TaskPtr Cpu)
  allocated : List (TaskPtr Cpu)
  alive : List (TaskPtr Cpu)
  freed : List (TaskPtr Cpu)
  overwritten : Bool

inductive Label (Cpu : Type) where
  | test (t : TaskPtr Cpu)
  | alloc (t : TaskPtr Cpu) (ok : Bool)
  | insert (t : TaskPtr Cpu) (rand : Nat)
  | free (t : TaskPtr Cpu)
  | remove (t : TaskPtr Cpu)

/-- `P` is what is asked of the state in which a create enters its section. -/
inductive Step (P : Kernel Cpu Sem Ctx → TaskPtr Cpu → Prop) :
    State Cpu Sem Ctx → Label Cpu → State Cpu Sem Ctx → Prop
  | refuse {s : State Cpu Sem Ctx} {t : TaskPtr Cpu} (full : maxTask ≤ s.kernel.cntTasks) : Step P s (.test t) s
  | test {s : State Cpu Sem Ctx} {t : TaskPtr Cpu} (room : s.kernel.cntTasks < maxTask) :
      Step P s (.test t) { s with tested := t :: s.tested }
  | fail {s : State Cpu Sem Ctx} {t : TaskPtr Cpu} {l₁ l₂ : List (TaskPtr Cpu)} (here : s.tested = l₁ ++ t :: l₂) :
      Step P s (.alloc t false) { s with tested := l₁ ++ l₂ }
  | alloc {s : State Cpu Sem Ctx} {t : TaskPtr Cpu} {l₁ l₂ : List (TaskPtr Cpu)} (context : Ctx)
      (here : s.tested = l₁ ++ t :: l₂) :
      Step P s (.alloc t true) { s with
        kernel := kmtCreateInit s.kernel t context
        tested := l₁ ++ l₂
        allocated := t :: s.allocated }
  | insert {s : State Cpu Sem Ctx} {t : TaskPtr Cpu} {l₁ l₂ : List (TaskPtr Cpu)} (rand : Nat)
      (here : s.allocated = l₁ ++ t :: l₂) (allowed : P s.kernel t) :
      Step P s (.insert t rand) { s with
        kernel := kmtCreateLocked s.kernel t rand
        allocated := l₁ ++ l₂
        alive := t :: s.alive
        overwritten := s.overwritten ||
          (s.kernel.tasks ((kmtCreateLocked s.kernel t rand).task t).id).isSome }
  | free {s : State Cpu Sem Ctx} {t : TaskPtr Cpu} {l₁ l₂ : List (TaskPtr Cpu)} (here : s.alive = l₁ ++ t :: l₂) :
      Step P s (.free t) { s with alive := l₁ ++ l₂, freed := t :: s.freed }
  | remove {s : State Cpu Sem Ctx} {t : TaskPtr Cpu} {l₁ l₂ : List (TaskPtr Cpu)} (here : s.freed = l₁ ++ t :: l₂) :
      Step P s (.remove t) { s with kernel := kmtTeardown s.kernel t, freed := l₁ ++ l₂ }

def tables (P : Kernel Cpu Sem Ctx → TaskPtr Cpu → Prop) : Machine (State Cpu Sem Ctx) (Label Cpu) where
  Init s := s.kernel.tasks = (fun _ => none) ∧ s.kernel.cntTasks = 0 ∧ s.tested = [] ∧ s.allocated = [] ∧
    s.alive = [] ∧ s.freed = [] ∧ s.overwritten = false
  Step := Step P

variable {k : Kernel Cpu Sem Ctx} {s s' : State Cpu Sem Ctx} {t : TaskPtr Cpu} {rand : Nat}

def occupied (tasks : Nat → Option (TaskPtr Cpu)) : Nat :=
    ((Finset.range maxTask).filter fun i => (tasks i).isSome).card

/-- `cnt_tasks` counts the slots in use, each task stands in the slot of its id, and nothing was replaced. -/
structure Right (s : State Cpu Sem Ctx) : Prop where
  count : s.kernel.cntTasks = occupied s.kernel.tasks
  bound : s.kernel.cntTasks ≤ maxTask
  ids : ∀ i < maxTask, ∀ t, s.kernel.tasks i = some t → (s.kernel.task t).id = i
  once : ∀ i < maxTask, ∀ j < maxTask, ∀ t, s.kernel.tasks i = some t → s.kernel.tasks j = some t → i = j
  kept : s.overwritten = false

/-- The capacity test would pass under the lock, and the task is not in the table. -/
def Fits (k : Kernel Cpu Sem Ctx) (t : TaskPtr Cpu) : Prop :=
  k.cntTasks < maxTask ∧ ∀ i < maxTask, k.tasks i ≠ some t

/-! ### Counting slots -/

omit [DecidableEq Cpu] in
theorem occupied_insert {tasks : Nat → Option (TaskPtr Cpu)} {i : Nat} (small : i < maxTask) (free : tasks i = none) :
    occupied (update tasks i (some t)) = occupied tasks + 1 := by
  have slots : ((Finset.range maxTask).filter fun j => (update tasks i (some t) j).isSome = true) =
      insert i ((Finset.range maxTask).filter fun j => (tasks j).isSome = true) := by
    ext j
    by_cases same : j = i
    · simp [same, small]
    · simp [same]
  rw [occupied, slots, Finset.card_insert_of_notMem (by simp [free]), occupied]

omit [DecidableEq Cpu] in
theorem occupied_erase {tasks : Nat → Option (TaskPtr Cpu)} {i : Nat} (small : i < maxTask)
    (used : (tasks i).isSome = true) :
    occupied (update tasks i none) + 1 = occupied tasks := by
  have slots : ((Finset.range maxTask).filter fun j => (update tasks i none j).isSome = true) =
      ((Finset.range maxTask).filter fun j => (tasks j).isSome = true).erase i := by
    ext j
    by_cases same : j = i
    · simp [same]
    · simp [same]
  rw [occupied, slots, occupied]
  exact Finset.card_erase_add_one (by simp [small, used])

omit [DecidableEq Cpu] in
theorem exists_free {tasks : Nat → Option (TaskPtr Cpu)} (room : occupied tasks < maxTask) :
    ∃ i < maxTask, tasks i = none := by
  by_contra full
  have slots : ((Finset.range maxTask).filter fun i => (tasks i).isSome = true) = Finset.range maxTask := by
    apply Finset.filter_true_of_mem
    intro i mem
    cases entry : tasks i with
    | none => exact absurd ⟨i, Finset.mem_range.mp mem, entry⟩ full
    | some t => rfl
  rw [occupied, slots, Finset.card_range] at room
  exact Nat.lt_irrefl _ room

theorem add_mod_back {n j : Nat} (seed : Nat) (small : j < n) : (seed + (j + (n - seed % n)) % n) % n = j := by
  have lt := Nat.mod_lt seed (Nat.zero_lt_of_lt small)
  have split := Nat.div_add_mod seed n
  have total : seed + (j + (n - seed % n)) = j + n * (seed / n + 1) := by
    rw [Nat.mul_add]
    generalize n * (seed / n) = whole at split ⊢
    omega
  rw [Nat.add_mod_mod, total, Nat.add_mul_mod_self_left, Nat.mod_eq_of_lt small]

omit [DecidableEq Cpu] in
theorem search_free {tasks : Nat → Option (TaskPtr Cpu)} (free : ∃ i < maxTask, tasks i = none) (seed : Nat) :
    ∃ i, (List.range maxTask).find? (fun i => (tasks ((seed + i) % maxTask)).isNone) = some i ∧
      tasks ((seed + i) % maxTask) = none := by
  obtain ⟨j, small, empty⟩ := free
  generalize maxTask = n at small ⊢
  have found : ((List.range n).find? fun i => (tasks ((seed + i) % n)).isNone).isSome = true := by
    rw [List.find?_isSome]
    refine ⟨(j + (n - seed % n)) % n, List.mem_range.mpr (Nat.mod_lt _ (Nat.zero_lt_of_lt small)), ?_⟩
    rw [add_mod_back seed small, empty]
    rfl
  obtain ⟨i, hi⟩ := Option.isSome_iff_exists.mp found
  have empty := @List.find?_some _ (fun i => (tasks ((seed + i) % n)).isNone) _ _ hi
  exact ⟨i, hi, Option.isNone_iff_eq_none.mp empty⟩

/-- With a free slot the section stores the task there, under the slot's number. -/
theorem kmtCreateLocked_eq (free : ∃ i < maxTask, k.tasks i = none) :
    ∃ slot < maxTask, k.tasks slot = none ∧ (kmtCreateLocked k t rand).tasks = update k.tasks slot (some t) ∧
      (kmtCreateLocked k t rand).cntTasks = k.cntTasks + 1 ∧
      ∀ u, ((kmtCreateLocked k t rand).task u).id = if u = t then slot else (k.task u).id := by
  obtain ⟨i, found, empty⟩ := search_free free (rand % maxTask)
  have pos : 0 < maxTask := by decide
  refine ⟨(rand % maxTask + i) % maxTask, Nat.mod_lt _ pos, empty, ?_, rfl, fun u => ?_⟩
  · simp only [kmtCreateLocked, found, Option.getD_some]
  · simp only [kmtCreateLocked, found, Option.getD_some, Kernel.setTask_task]
    split <;> rfl

/-! ### Runs -/

/-- The tasks that were created and whose teardown is not over are those in the table. -/
structure Inv (s : State Cpu Sem Ctx) : Prop where
  right : Right s
  nodup : (s.alive ++ s.freed).Nodup
  placed : ∀ t, t ∈ s.alive ++ s.freed ↔ ∃ i < maxTask, s.kernel.tasks i = some t

namespace Inv

omit [DecidableEq Cpu] in
theorem congr (inv : Inv s) (tasks : s'.kernel.tasks = s.kernel.tasks) (cnt : s'.kernel.cntTasks = s.kernel.cntTasks)
    (id : ∀ t, (s'.kernel.task t).id = (s.kernel.task t).id) (kept : s'.overwritten = s.overwritten)
    (perm : (s'.alive ++ s'.freed).Perm (s.alive ++ s.freed)) : Inv s' := by
  obtain ⟨⟨count, bound, ids, once, keeps⟩, nodup, placed⟩ := inv
  refine ⟨⟨?_, ?_, ?_, ?_, kept.trans keeps⟩, perm.nodup_iff.mpr nodup, fun t => ?_⟩
  · rw [cnt, tasks, count]
  · rw [cnt]
    exact bound
  · intro i small t entry
    rw [tasks] at entry
    rw [id]
    exact ids i small t entry
  · rw [tasks]
    exact once
  · rw [perm.mem_iff, tasks]
    exact placed t

theorem insert {l₁ l₂ : List (TaskPtr Cpu)} (inv : Inv s) (fits : Fits s.kernel t) : Inv { s with
    kernel := kmtCreateLocked s.kernel t rand
    allocated := l₁ ++ l₂
    alive := t :: s.alive
    overwritten := s.overwritten || (s.kernel.tasks ((kmtCreateLocked s.kernel t rand).task t).id).isSome } := by
  obtain ⟨⟨count, bound, ids, once, kept⟩, nodup, placed⟩ := inv
  obtain ⟨room, new⟩ := fits
  have free := exists_free (show occupied s.kernel.tasks < maxTask by omega)
  obtain ⟨slot, small, empty, tasks, cnt, id⟩ := @kmtCreateLocked_eq _ _ _ _ s.kernel t rand free
  have ids' : ∀ i < maxTask, ∀ u, (kmtCreateLocked s.kernel t rand).tasks i = some u →
      ((kmtCreateLocked s.kernel t rand).task u).id = i := by
    intro i lt u entry
    rw [tasks, update_apply] at entry
    rw [id]
    split at entry
    · rename_i here
      rw [if_pos (Option.some.inj entry).symm, here]
    · have other : u ≠ t := by
        rintro rfl
        exact new i lt entry
      rw [if_neg other]
      exact ids i lt u entry
  refine ⟨⟨?_, ?_, ids', ?_, ?_⟩, ?_, fun u => ?_⟩
  · simp only
    rw [cnt, tasks, occupied_insert small empty, count]
    rfl
  · simp only
    rw [cnt]
    omega
  · intro i lt j lt' u entry entry'
    exact (ids' i lt u entry).symm.trans (ids' j lt' u entry')
  · simp only
    rw [id, if_pos rfl, empty, kept]
    rfl
  · refine List.nodup_cons.mpr ⟨fun mem => ?_, nodup⟩
    obtain ⟨i, lt, entry⟩ := (placed t).mp mem
    exact new i lt entry
  · simp only [List.cons_append, List.mem_cons]
    rw [placed, tasks]
    constructor
    · rintro (rfl | ⟨i, lt, entry⟩)
      · exact ⟨slot, small, update_self ..⟩
      · refine ⟨i, lt, ?_⟩
        rw [update_of_ne, entry]
        rintro rfl
        rw [empty] at entry
        cases entry
    · rintro ⟨i, lt, entry⟩
      rw [update_apply] at entry
      split at entry
      · exact .inl (Option.some.inj entry).symm
      · exact .inr ⟨i, lt, entry⟩

omit [DecidableEq Cpu] in
theorem remove {l₁ l₂ : List (TaskPtr Cpu)} (inv : Inv s) (here : s.freed = l₁ ++ t :: l₂) :
    Inv { s with kernel := kmtTeardown s.kernel t, freed := l₁ ++ l₂ } := by
  obtain ⟨⟨count, bound, ids, once, kept⟩, nodup, placed⟩ := inv
  have apart : (s.alive ++ s.freed).Perm (t :: (s.alive ++ (l₁ ++ l₂))) := by
    rw [here, ← List.append_assoc, ← List.append_assoc]
    exact List.perm_middle
  obtain ⟨out, nodup'⟩ := List.nodup_cons.mp (apart.nodup_iff.mp nodup)
  obtain ⟨i, small, entry⟩ := (placed t).mp (apart.mem_iff.mpr List.mem_cons_self)
  have slot := ids i small t entry
  have erased := occupied_erase small (show (s.kernel.tasks i).isSome = true by rw [entry]; rfl)
  have table (j : Nat) (u : TaskPtr Cpu) : (kmtTeardown s.kernel t).tasks j = some u ↔ j ≠ i ∧
      s.kernel.tasks j = some u := by
    simp only [kmtTeardown, slot, update_apply]
    split
    · rename_i same
      exact iff_of_false (by simp) fun h => h.1 same
    · rename_i other
      exact ⟨fun h => ⟨other, h⟩, And.right⟩
  refine ⟨⟨?_, ?_, ?_, ?_, kept⟩, nodup', fun u => ?_⟩
  · simp only [kmtTeardown, slot]
    omega
  · simp only [kmtTeardown]
    omega
  · intro j lt u there
    exact ids j lt u ((table j u).mp there).2
  · intro j lt j' lt' u there there'
    exact once j lt j' lt' u ((table j u).mp there).2 ((table j' u).mp there').2
  · have rest : u ∈ s.alive ++ (l₁ ++ l₂) ↔ u ≠ t ∧ u ∈ s.alive ++ s.freed := by
      rw [apart.mem_iff, List.mem_cons]
      constructor
      · intro mem
        refine ⟨?_, .inr mem⟩
        rintro rfl
        exact out mem
      · rintro ⟨other, same | mem⟩
        · exact absurd same other
        · exact mem
    simp only
    rw [rest, placed]
    constructor
    · rintro ⟨other, j, lt, there⟩
      refine ⟨j, lt, (table j u).mpr ⟨?_, there⟩⟩
      rintro rfl
      exact other (Option.some.inj (there.symm.trans entry))
    · rintro ⟨j, lt, there⟩
      obtain ⟨other, before⟩ := (table j u).mp there
      refine ⟨?_, j, lt, before⟩
      rintro rfl
      exact other (once j lt i small u before entry)

end Inv

theorem step_inv {label : Label Cpu} (inv : Inv s) (step : Step Fits s label s') : Inv s' := by
  cases step with
  | refuse full => exact inv
  | test room => exact inv.congr rfl rfl (fun _ => rfl) rfl (.refl _)
  | fail here => exact inv.congr rfl rfl (fun _ => rfl) rfl (.refl _)
  | @alloc t l₁ l₂ context here =>
    refine inv.congr rfl rfl (fun u => ?_) rfl (.refl _)
    by_cases same : u = t <;> simp [kmtCreateInit, same]
  | insert rand here fits => exact inv.insert fits
  | @free t l₁ l₂ here =>
    refine inv.congr rfl rfl (fun _ => rfl) rfl ?_
    rw [here]
    simp only [List.append_assoc, List.cons_append]
    exact List.Perm.append_left l₁ List.perm_middle
  | remove here => exact inv.remove here

omit [DecidableEq Cpu] in
theorem occupied_none : occupied (fun _ => none : Nat → Option (TaskPtr Cpu)) = 0 := by
  simp [occupied]

theorem inv_init (init : (tables Fits : Machine (State Cpu Sem Ctx) _).Init s) : Inv s := by
  obtain ⟨tasks, cnt, -, -, alive, freed, kept⟩ := init
  refine ⟨⟨?_, ?_, ?_, ?_, kept⟩, ?_, fun t => ?_⟩
  · rw [cnt, tasks, occupied_none]
    rfl
  · rw [cnt]
    exact Int.natCast_nonneg maxTask
  · simp [tasks]
  · simp [tasks]
  · simp [alive, freed]
  · simp [alive, freed, tasks]

/-- While every create enters its section with `cnt_tasks` still below `MAXTASK`, and with a task that is not in the
table, the table is right. -/
theorem reachable_tasksRight (h : (tables Fits : Machine (State Cpu Sem Ctx) _).Reachable s) : Right s := by
  have inv : Inv s := h.induct Inv (fun _ => inv_init) fun _ _ _ => step_inv
  exact inv.right

/-- Two tasks are created, and the first is torn down. -/
theorem reachable_tasksRight_sample : ∃ s : State Bool Unit Nat, s.alive = [.task 1] ∧ Right s := by
  have start : (tables Fits : Machine (State Bool Unit Nat) _).Reachable
      ⟨(sampleBoot 0).kernel, [], [], [], [], false⟩ := .init ⟨rfl, rfl, rfl, rfl, rfl, rfl, rfl⟩
  have tested := start.step (.test (t := .task 0) (by decide))
  have allocated := tested.step (.alloc 0 (List.nil_append _).symm)
  have inserted :=
    allocated.step (.insert 5 (List.nil_append _).symm ⟨by decide, by simp [kmtCreateInit, Kernel.setTask, sampleBoot]⟩)
  have freed := inserted.step (.free (List.nil_append _).symm)
  have removed := freed.step (.remove (List.nil_append _).symm)
  have inv : Inv _ := removed.induct Inv (fun _ => inv_init) fun _ _ _ => step_inv
  have tested' := removed.step (.test (t := .task 1) (by decide))
  have allocated' := tested'.step (.alloc 0 (List.nil_append _).symm)
  have inserted' := allocated'.step (.insert 5 (List.nil_append _).symm ⟨by decide, fun i small entry => by
    cases ((inv.placed (.task 1)).mpr ⟨i, small, entry⟩)⟩)
  exact ⟨_, rfl, reachable_tasksRight inserted'⟩

/-- With any state allowed, `n` tasks can be created one after the other. -/
theorem reach_filled (n : Nat) (le : n ≤ maxTask) :
    ∃ s : State Bool Unit Nat, (tables fun _ _ => True).Reachable s ∧ Inv s ∧ s.kernel.cntTasks = n ∧
      s.tested = [] ∧ s.allocated = [] ∧ ∀ t ∈ s.alive ++ s.freed, ∃ m < n, t = .task m := by
  induction n with
  | zero =>
    refine ⟨⟨(sampleBoot 0).kernel, [], [], [], [], false⟩, .init ?_, inv_init ?_, rfl, rfl, rfl, by simp⟩
    all_goals exact ⟨rfl, rfl, rfl, rfl, rfl, rfl, rfl⟩
  | succ n ih =>
    obtain ⟨s, run, inv, cnt, tested, allocated, tasks⟩ := ih (by omega)
    have room : s.kernel.cntTasks < maxTask := by omega
    have new (i : Nat) (small : i < maxTask) : s.kernel.tasks i ≠ some (.task n) := by
      intro entry
      obtain ⟨m, lt, same⟩ := tasks _ ((inv.placed (.task n)).mpr ⟨i, small, entry⟩)
      cases same
      exact Nat.lt_irrefl n lt
    have run₁ := run.step (.test (t := .task n) room)
    have waiting : .task n :: s.tested = [] ++ .task n :: [] := by rw [tested, List.nil_append]
    have ready : .task n :: s.allocated = [] ++ .task n :: [] := by rw [allocated, List.nil_append]
    have run₂ := run₁.step (.alloc 0 waiting)
    have run₃ := run₂.step (.insert 0 ready trivial)
    have inv₂ := step_inv (step_inv inv (.test (t := .task n) room)) (.alloc 0 waiting)
    refine ⟨_, run₃, inv₂.insert ⟨room, new⟩, ?_, rfl, rfl, ?_⟩
    · simp [kmtCreateLocked, kmtCreateInit, Kernel.setTask, cnt]
    · intro t mem
      rcases List.mem_cons.mp mem with rfl | mem
      · exact ⟨n, Nat.lt_succ_self n, rfl⟩
      · obtain ⟨m, lt, same⟩ := tasks t mem
        exact ⟨m, Nat.lt_succ_of_lt lt, same⟩

/-- One slot is left when two creates make the test. -/
theorem reachable_tasksRight_counterexample : ∃ s : State Bool Unit Nat,
    (tables fun _ _ => True).Reachable s ∧ s.kernel.cntTasks = maxTask + 1 ∧ ¬Right s := by
  obtain ⟨s, run, -, cnt, tested, allocated, -⟩ := reach_filled 1023 (by decide)
  have room : s.kernel.cntTasks < maxTask := by
    rw [cnt]
    decide
  have run₁ := run.step (.test (t := .task 1023) room)
  have run₂ := run₁.step (.test (t := .task 1024) room)
  have waiting : .task 1024 :: .task 1023 :: s.tested = [] ++ .task 1024 ::
      [.task 1023] := by rw [tested, List.nil_append]
  have ready : .task 1023 :: .task 1024 :: s.allocated = [] ++ .task 1023 :: [.task 1024] := by
    rw [allocated, List.nil_append]
  have run₃ := run₂.step (.alloc 0 waiting)
  have run₄ := run₃.step (.alloc 0 (List.nil_append _).symm)
  have run₅ := run₄.step (.insert 0 ready trivial)
  have run₆ := run₅.step (.insert 0 (List.nil_append _).symm trivial)
  have count : (kmtCreateLocked (kmtCreateLocked (kmtCreateInit (kmtCreateInit s.kernel (.task 1024) 0) (.task 1023) 0)
      (.task 1023) 0) (.task 1024) 0).cntTasks = maxTask + 1 := by
    simp [kmtCreateLocked, kmtCreateInit, Kernel.setTask, cnt, maxTask]
  refine ⟨_, run₆, count, fun right => ?_⟩
  have bound := right.bound
  rw [count] at bound
  omega

end Tasks

end OsLabs.Kmt

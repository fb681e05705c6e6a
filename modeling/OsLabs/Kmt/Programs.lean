import OsLabs.Data.Permits
import OsLabs.Kmt.Semaphore

/-!
# Tasks that run programs on the kernel's semaphores

Some tasks repeat a program of waits, signals and output. Some of the semaphores only
they use; the others are those of the other tasks and the handlers, and the programs may
use them as well. Whatever the traps, the choices of the scheduler and the wake-ups, the
programs see their own as counting semaphores, as long as no count wraps: a call of
`sem_wait` that returns took a permit, and while all of the tasks sleep there is no permit
that one of them waits for.
-/

namespace OsLabs.Kmt.Programs
open Function Permits

variable {Cpu σ τ Ctx Out : Type} {N : Nat}

/-- The kernel, the place of each task in its program, and what the programs put out, in order. Only the programs use
the semaphores of `σ`. -/
structure State (Cpu σ τ Ctx Out : Type) (N : Nat) where
  os : Kmt.State Cpu (σ ⊕ τ) Ctx
  pc : Fin N → Nat
  out : List Out

/-- The CPU executes the code of the task, outside of any call. -/
structure Runs (st : State Cpu σ τ Ctx Out N) (c : Cpu) (p : Fin N) : Prop where
  resumed : st.os.resumed c = .task p
  outside : st.os.lockOs ≠ some c
  idle : st.os.phase (.task p) = .code

/-- Traps, the creation of tasks, and calls that are not those of a program. -/
def Foreign (st : State Cpu σ τ Ctx Out N) : Label Cpu (σ ⊕ τ) Ctx → Prop
  | .trap .. | .switch .. | .create _ => True
  | .wait c s | .leave c s => s.isRight = true ∧ ∀ p : Fin N, st.os.resumed c ≠ .task p
  | .signal s => s.isRight = true

variable [DecidableEq Cpu] [DecidableEq σ] [DecidableEq τ]

/-- A task goes on in its program when a call of `sem_wait` returns, when one of `sem_signal` is made, and when it puts
something out. -/
inductive Step (prog : Fin N → List (Op (σ ⊕ τ) Out)) : State Cpu σ τ Ctx Out N → Option (Label Cpu (σ ⊕ τ) Ctx) →
    State Cpu σ τ Ctx Out N → Prop where
  | foreign {st : State Cpu σ τ Ctx Out N} {l : Label Cpu (σ ⊕ τ) Ctx} {os : Kmt.State Cpu (σ ⊕ τ) Ctx}
      (other : Foreign st l) (made : Kmt.Step st.os l os) : Step prog st (some l) { st with os := os }
  | call {st : State Cpu σ τ Ctx Out N} {os : Kmt.State Cpu (σ ⊕ τ) Ctx} {c : Cpu} {p : Fin N}
      {s : σ ⊕ τ} (runs : Runs st c p) (op : (prog p)[st.pc p]? = some (.wait s))
      (made : Kmt.Step st.os (.wait c s) os) :
      Step prog st (some (.wait c s)) { st with os := os }
  | back {st : State Cpu σ τ Ctx Out N} {os : Kmt.State Cpu (σ ⊕ τ) Ctx} {c : Cpu} {p : Fin N}
      {s : σ ⊕ τ} (resumed : st.os.resumed c = .task p) (made : Kmt.Step st.os (.leave c s) os) :
      Step prog st (some (.leave c s))
        { st with os := os, pc := update st.pc p (next (prog p) (st.pc p)) }
  | signal {st : State Cpu σ τ Ctx Out N} {os : Kmt.State Cpu (σ ⊕ τ) Ctx} {c : Cpu} {p : Fin N}
      {s : σ ⊕ τ} (runs : Runs st c p) (op : (prog p)[st.pc p]? = some (.signal s))
      (made : Kmt.Step st.os (.signal s) os) :
      Step prog st (some (.signal s))
        { st with os := os, pc := update st.pc p (next (prog p) (st.pc p)) }
  | emit {st : State Cpu σ τ Ctx Out N} {c : Cpu} {p : Fin N} {o : Out} (runs : Runs st c p)
      (op : (prog p)[st.pc p]? = some (.emit o)) :
      Step prog st none { st with pc := update st.pc p (next (prog p) (st.pc p)), out := st.out ++ [o] }

def initial (v : σ → Nat) (u : τ → Nat) : σ ⊕ τ → Int := Sum.elim (fun s => v s) fun s => u s

/-- The programs start at their first operation once the kernel is up. -/
def machine (prog : Fin N → List (Op (σ ⊕ τ) Out)) (v : σ → Nat) (u : τ → Nat) :
    Machine (State Cpu σ τ Ctx Out N) (Option (Label Cpu (σ ⊕ τ) Ctx)) where
  Init st := Booted (initial v u) st.os ∧ st.pc = (fun _ => 0) ∧ st.out = []
  Step := Step prog

/-- No count of a semaphore of the programs wraps. -/
def Small (st : State Cpu σ τ Ctx Out N) (l : Option (Label Cpu (σ ⊕ τ) Ctx)) : Prop :=
  ∀ k ∈ l, ∀ r, k.counts = some (.inl r) → Fits st.os k

def counting (prog : Fin N → List (Op (σ ⊕ τ) Out)) (v : σ → Nat) (u : τ → Nat) :
    Machine (State Cpu σ τ Ctx Out N) (Option (Label Cpu (σ ⊕ τ) Ctx)) :=
  (machine prog v u).restrict Small

variable {prog : Fin N → List (Op (σ ⊕ τ) Out)} {v : σ → Nat} {u : τ → Nat} {st st' : State Cpu σ τ Ctx Out N}

omit [DecidableEq Cpu] [DecidableEq σ] [DecidableEq τ] in
theorem small_other {k : Label Cpu (σ ⊕ τ) Ctx} (other : k.counts = none) : Small st (some k) := by
  intro k' hk r counts
  obtain rfl := Option.some.inj hk
  rw [other] at counts
  cases counts

theorem step_os {l : Option (Label Cpu (σ ⊕ τ) Ctx)} (step : Step prog st l st') :
    l = none ∧ st'.os = st.os ∨ ∃ k, l = some k ∧ Kmt.Step st.os k st'.os := by
  cases step with
  | foreign other made => exact .inr ⟨_, rfl, made⟩
  | call runs op made => exact .inr ⟨_, rfl, made⟩
  | back resumed made => exact .inr ⟨_, rfl, made⟩
  | signal runs op made => exact .inr ⟨_, rfl, made⟩
  | emit runs op => exact .inl ⟨rfl, rfl⟩

theorem reachable_os (run : (machine prog v u).Reachable st) : (kernelMachine (initial v u)).Reachable st.os := by
  refine run.induct (fun st => (kernelMachine (initial v u)).Reachable st.os) (fun st init => ?_)
    fun st l st' before step => ?_
  · exact .init init.1
  · rcases step_os step with ⟨-, same⟩ | ⟨k, -, made⟩
    · rw [same]
      exact before
    · exact before.step made

theorem reachable_level (small : ∀ r, (v r : Int) ≤ intMax) (run : (counting prog v u).Reachable st) (r : σ) :
    Level (initial v u) st.os (.inl r) := by
  refine run.induct (fun st => Level (initial v u) st.os (.inl r)) (fun st init => ?_) fun st l st' L step => ?_
  · exact .booted init.1 ⟨Int.natCast_nonneg (v r), small r⟩
  · rcases step_os step.2 with ⟨-, same⟩ | ⟨k, rfl, made⟩
    · rw [same]
      exact L
    · exact step_level L (step.1 k rfl r) made

/-! ### A task is in a call only where its program waits -/

/-- What a step of the kernel does to the call that a task is in. -/
def Label.sem {Sem : Type} (st : Kmt.State Cpu Sem Ctx) (t : TaskPtr Cpu) : Label Cpu Sem Ctx → Option Sem
  | .wait c s => if t = st.resumed c then some s else (st.phase t).sem
  | .leave c _ => if t = st.resumed c then none else (st.phase t).sem
  | _ => (st.phase t).sem

theorem step_phase {Sem : Type} [DecidableEq Sem] {st st' : Kmt.State Cpu Sem Ctx} {l : Label Cpu Sem Ctx}
    (step : Kmt.Step st l st') (t : TaskPtr Cpu) : (st'.phase t).sem = Label.sem st t l := by
  cases step with
  | error => rfl
  | save unlocked proper saved =>
    rename_i c ev context
    simp only [Label.sem]
    split
    · by_cases same : t = st.resumed c
      · subst same; simp
      · rw [update_of_ne same]
    · rfl
  | switch held chosen => rfl
  | create fresh => rfl
  | wait outside scheduled idle alloc locked =>
    rename_i k c s n tasknode blocked
    simp only [Label.sem, scheduled]
    by_cases same : t = .task n
    · subst same
      cases blocked <;> simp [Phase.sem]
    · rw [update_of_ne same, if_neg same]
  | leave outside done =>
    rename_i c s
    simp only [Label.sem]
    by_cases same : t = st.resumed c
    · subst same; simp [Phase.sem]
    · rw [update_of_ne same, if_neg same]
  | signal locked => rfl

/-- A task that is in a call runs a program that waits there, and no other task is in one on a semaphore of the
programs. -/
structure Placed (prog : Fin N → List (Op (σ ⊕ τ) Out)) (st : State Cpu σ τ Ctx Out N) : Prop where
  program : ∀ (p : Fin N) s, (st.os.phase (.task p)).sem = some s → (prog p)[st.pc p]? = some (.wait s)
  shared : ∀ t r, (st.os.phase t).sem = some (.inl r) → ∃ p : Fin N, t = .task p

omit [DecidableEq Cpu] in
theorem fin_task {p q : Fin N} (h : (TaskPtr.task p : TaskPtr Cpu) = .task q) : p = q :=
  Fin.ext (TaskPtr.task.inj h)

theorem Placed.foreign {l : Label Cpu (σ ⊕ τ) Ctx} {os : Kmt.State Cpu (σ ⊕ τ) Ctx} (P : Placed prog st)
    (other : Foreign st l) (made : Kmt.Step st.os l os) : Placed prog { st with os := os } := by
  have phase := step_phase made
  cases l with
  | wait c s =>
    obtain ⟨right, apart⟩ := other
    simp only [Label.sem] at phase
    refine ⟨fun p r inCall => ?_, fun t r inCall => ?_⟩
    · rw [phase, if_neg (apart p).symm] at inCall
      exact P.program p r inCall
    · rw [phase] at inCall
      split at inCall
      · rw [Option.some.inj inCall] at right
        cases right
      · exact P.shared t r inCall
  | leave c s =>
    obtain ⟨-, apart⟩ := other
    simp only [Label.sem] at phase
    refine ⟨fun p r inCall => ?_, fun t r inCall => ?_⟩
    · rw [phase] at inCall
      split at inCall
      · cases inCall
      · exact P.program p r inCall
    · rw [phase] at inCall
      split at inCall
      · cases inCall
      · exact P.shared t r inCall
  | _ => exact ⟨fun p r inCall => P.program p r (by rwa [phase] at inCall),
      fun t r inCall => P.shared t r (by rwa [phase] at inCall)⟩

omit [DecidableEq σ] [DecidableEq τ] in
/-- A task that is in no call goes on. -/
theorem Placed.advance {os : Kmt.State Cpu (σ ⊕ τ) Ctx} {p : Fin N} {i : Nat} {out : List Out} (P : Placed prog st)
    (idle : (os.phase (.task p)).sem = none) (same : ∀ t, t ≠ .task p → (os.phase t).sem = (st.os.phase t).sem) :
    Placed prog { st with os := os, pc := update st.pc p i, out := out } := by
  refine ⟨fun q r inCall => ?_, fun t r inCall => ?_⟩
  · by_cases here : q = p
    · subst here
      rw [idle] at inCall
      cases inCall
    · rw [same _ fun h => here (fin_task h)] at inCall
      simpa only [update_of_ne here] using P.program q r inCall
  · by_cases here : t = .task p
    · exact ⟨p, here⟩
    · rw [same t here] at inCall
      exact P.shared t r inCall

theorem step_placed {l : Option (Label Cpu (σ ⊕ τ) Ctx)} (P : Placed prog st) (step : Step prog st l st') :
    Placed prog st' := by
  cases step with
  | foreign other made => exact P.foreign other made
  | call runs op made =>
    rename_i os c p s
    have phase := step_phase made
    simp only [Label.sem, runs.resumed] at phase
    refine ⟨fun q r inCall => ?_, fun t r inCall => ?_⟩
    · rw [phase] at inCall
      split at inCall
      · rename_i here
        rw [fin_task here, ← Option.some.inj inCall]
        exact op
      · exact P.program q r inCall
    · rw [phase] at inCall
      split at inCall
      · rename_i here
        exact ⟨p, here⟩
      · exact P.shared t r inCall
  | back resumed made =>
    have phase := step_phase made
    simp only [Label.sem, resumed] at phase
    refine P.advance (by rw [phase, if_pos rfl]) fun t other => ?_
    rw [phase, if_neg other]
  | signal runs op made =>
    have phase := step_phase made
    simp only [Label.sem] at phase
    exact P.advance (by rw [phase, runs.idle, Phase.sem]) fun t _ => phase t
  | emit runs op => exact P.advance (by rw [runs.idle, Phase.sem]) fun t _ => rfl

theorem reachable_placed (run : (machine prog v u).Reachable st) : Placed prog st := by
  refine run.induct (Placed prog) (fun st init => ?_) fun st l st' P step => step_placed P step
  have code : st.os.phase = fun _ => .code := init.1.phase
  refine ⟨fun p s inCall => ?_, fun t r inCall => ?_⟩ <;>
    simp only [code, Phase.sem, reduceCtorEq] at inCall

/-! ### The programs see counting semaphores -/

/-- The permits of a semaphore are those it started with and the signals, less the calls of `sem_wait` that returned. -/
def abs (v : σ → Nat) (st : State Cpu σ τ Ctx Out N) : Permits.State (Fin N) σ Out where
  pc := st.pc
  permits s := v s + st.os.signals (.inl s) - st.os.returns (.inl s)
  out := st.out

theorem returns_le (small : ∀ r, (v r : Int) ≤ intMax) (run : (counting prog v u).Reachable st) (s : σ) :
    st.os.returns (.inl s) ≤ v s + st.os.signals (.inl s) := by
  obtain ⟨w, I⟩ := reachable_sem (reachable_os run.of_restrict)
  have paid := I.returns_le (reachable_level small run s)
  simp only [initial, Sum.elim_inl] at paid
  omega

omit [DecidableEq Cpu] [DecidableEq σ] [DecidableEq τ] in
/-- A step on a semaphore of other tasks leaves the permits. -/
theorem abs_other {os : Kmt.State Cpu (σ ⊕ τ) Ctx} {i : Fin N → Nat} {out : List Out}
    (signals : ∀ r, os.signals (.inl r) = st.os.signals (.inl r))
    (returns : ∀ r, os.returns (.inl r) = st.os.returns (.inl r)) :
    abs v { st with os := os, pc := i, out := out } = { abs v st with pc := i, out := out } := by
  simp only [abs, signals, returns]

omit [DecidableEq σ] [DecidableEq τ] in
theorem apart {s : σ ⊕ τ} (right : s.isRight = true) (r : σ) : .inl r ≠ s := by
  rintro rfl
  cases right

/-- The task took a permit, or its call was on a semaphore of other tasks. -/
theorem back_permits {os : Kmt.State Cpu (σ ⊕ τ) Ctx} {c : Cpu} {p : Fin N} {s : σ ⊕ τ} (P : Placed prog st)
    (resumed : st.os.resumed c = .task p) (made : Kmt.Step st.os (.leave c s) os)
    (paid : ∀ r, os.returns (.inl r) ≤ v r + os.signals (.inl r)) :
    Permits.Step prog (abs v st) p (abs v { st with os := os, pc := update st.pc p (next (prog p) (st.pc p)) }) := by
  cases made with
  | leave outside done =>
    have inCall : (st.os.phase (.task p)).sem = some s := by
      rw [← resumed]
      rcases done with h | h <;> rw [h] <;> rfl
    have op := P.program p s inCall
    cases s with
    | inr r =>
      have made : Permits.Step prog (abs v st) p _ := .pass (.inl op)
      convert made using 1
      exact abs_other (fun _ => rfl) fun q => by simp
    | inl s =>
      have some := paid s
      simp only [update_self] at some
      have free : 0 < (abs v st).permits s := by
        unfold abs
        simp only
        omega
      have made : Permits.Step prog (abs v st) p _ := .wait op free
      convert made using 1
      unfold abs
      congr 1
      funext r
      by_cases here : r = s
      · subst here
        simp only [update_self]
        omega
      · have other : (Sum.inl r : σ ⊕ τ) ≠ .inl s := fun h => here (Sum.inl.inj h)
        simp only [update_of_ne here, update_of_ne other]

/-- The task gave a permit, or signalled a semaphore of other tasks. -/
theorem signal_permits {os : Kmt.State Cpu (σ ⊕ τ) Ctx} {p : Fin N} {s : σ ⊕ τ}
    (op : (prog p)[st.pc p]? = some (.signal s)) (made : Kmt.Step st.os (.signal s) os)
    (paid : ∀ r, st.os.returns (.inl r) ≤ v r + st.os.signals (.inl r)) :
    Permits.Step prog (abs v st) p (abs v { st with os := os, pc := update st.pc p (next (prog p) (st.pc p)) }) := by
  cases made with
  | signal locked =>
    cases s with
    | inr r =>
      have made : Permits.Step prog (abs v st) p _ := .pass (.inr op)
      convert made using 1
      exact abs_other (fun q => by simp) fun _ => rfl
    | inl s =>
      have made : Permits.Step prog (abs v st) p _ := .signal op
      convert made using 1
      unfold abs
      congr 1
      funext r
      by_cases here : r = s
      · subst here
        have before := paid r
        simp only [update_self]
        omega
      · have other : (Sum.inl r : σ ⊕ τ) ≠ .inl s := fun h => here (Sum.inl.inj h)
        simp only [update_of_ne here, update_of_ne other]

theorem step_permits {l : Option (Label Cpu (σ ⊕ τ) Ctx)} (small : ∀ r, (v r : Int) ≤ intMax)
    (run : (counting prog v u).Reachable st) (step : (counting prog v u).Step st l st') :
    abs v st' = abs v st ∨ ∃ p, Permits.Step prog (abs v st) p (abs v st') := by
  have before := returns_le small run
  have paid := returns_le small (run.step step)
  cases step.2 with
  | foreign other made =>
    refine .inl ?_
    cases made with
    | leave outside done => exact abs_other (fun _ => rfl) fun r => update_of_ne (apart other.1 r) ..
    | signal locked => exact abs_other (fun r => update_of_ne (apart other r) ..) fun _ => rfl
    | _ => rfl
  | call runs op made =>
    cases made with
    | wait => exact .inl rfl
  | back resumed made => exact .inr ⟨_, back_permits (reachable_placed run.of_restrict) resumed made paid⟩
  | signal runs op made => exact .inr ⟨_, signal_permits op made before⟩
  | emit runs op => exact .inr ⟨_, .emit op⟩

theorem abs_init (init : (counting prog v u).Init st) : (Permits.machine prog v).Init (abs v st) := by
  obtain ⟨boot, pc, out⟩ := init
  change abs v st = _
  unfold abs
  simp only [pc, out, boot.signals, boot.returns, Nat.add_zero, Nat.sub_zero]

theorem reachable_abs (small : ∀ r, (v r : Int) ≤ intMax) (run : (counting prog v u).Reachable st) :
    (Permits.machine prog v).Reachable (abs v st) :=
  run.simulate (abs v) (fun _ => abs_init) fun _ _ _ before step => step_permits small before step

/-- Tasks that all sleep wait for permits that are not there, or for those of others. -/
theorem asleep_stuck (small : ∀ r, (v r : Int) ≤ intMax) (run : (counting prog v u).Reachable st)
    (created : ∀ p : Fin N, st.os.created (.task p) = true)
    (asleep : ∀ p : Fin N, (st.os.kernel.task (.task p)).sleep = 1) : Stuck prog (abs v st) := by
  obtain ⟨w, I⟩ := reachable_sem (reachable_os run.of_restrict)
  have P := reachable_placed run.of_restrict
  have queued (p : Fin N) : ∃ s, TaskPtr.task p ∈ w s := by
    by_contra out
    have awake := I.awake _ (created p) fun s mem => out ⟨s, mem⟩
    rw [asleep p] at awake
    cases awake
  intro p
  obtain ⟨s, mem⟩ := queued p
  refine ⟨s, P.program p s ((I.blocked s _).mp mem).1.sem, ?_⟩
  intro r same
  subst same
  -- every call on the semaphore that has not returned is in the queue
  have calls : st.os.calls (.inl r) ⊆ w (.inl r) := by
    intro t ht
    have inCall := (I.inCall _ t).mp ht
    obtain ⟨q, same⟩ := P.shared t r inCall
    subst same
    obtain ⟨s', mem'⟩ := queued q
    have sem := ((I.blocked s' _).mp mem').1.sem
    rw [inCall] at sem
    rwa [Option.some.inj sem]
  have inside := (List.subperm_of_subset (I.called (.inl r)) calls).length_le
  have nonempty := List.length_pos_of_mem mem
  have counted := I.counted (.inl r)
  have returned := I.returned (.inl r)
  obtain ⟨-, total, lacking⟩ := reachable_level small run r
  simp only [initial, Sum.elim_inl] at total
  simp only [abs]
  omega

/-! ### Where the permits stay few -/

omit [DecidableEq Cpu] [DecidableEq σ] [DecidableEq τ] in
/-- Only tasks of the programs are in a queue of theirs. -/
theorem queue_le {w : σ ⊕ τ → List (TaskPtr Cpu)} (I : SemInv st.os w) (P : Placed prog st) (r : σ) :
    (w (.inl r)).length ≤ N := by
  have inside : w (.inl r) ⊆ (List.finRange N).map fun p : Fin N => TaskPtr.task p := by
    intro t mem
    obtain ⟨p, same⟩ := P.shared t r ((I.blocked _ t).mp mem).1.sem
    exact List.mem_map.mpr ⟨p, List.mem_finRange p, same.symm⟩
  have short := (List.subperm_of_subset (I.nodup (.inl r)) inside).length_le
  simpa using short

/-- Programs that never leave more than `INT_MAX` permits wrap no count. -/
theorem reachable_small (tasks : (N : Int) < intMax) (small : ∀ r, (v r : Int) ≤ intMax)
    (few : ∀ a, (Permits.machine prog v).Reachable a → ∀ r, (a.permits r : Int) ≤ intMax)
    (run : (machine prog v u).Reachable st) : (counting prog v u).Reachable st := by
  induction run with
  | init h => exact .init h
  | @step st st' l _ made ih =>
    refine ih.step (l := l) ⟨?_, made⟩
    intro k hk r counts
    obtain rfl := Option.mem_def.mp hk
    have abstract := reachable_abs small ih
    obtain ⟨w, I⟩ := reachable_sem (reachable_os ih.of_restrict)
    have P := reachable_placed ih.of_restrict
    obtain ⟨-, total, lacking⟩ := reachable_level small ih r
    have counted := I.counted (.inl r)
    cases made with
    | foreign other made =>
      cases k with
      | wait c s => exact absurd (Option.some.inj counts).symm (apart other.1 r)
      | signal s => exact absurd (Option.some.inj counts).symm (apart other r)
      | _ => cases counts
    | call runs op made =>
      obtain rfl := Option.some.inj counts
      have queued := queue_le I P r
      change -intMax < (st.os.kernel.sem (.inl r)).count
      omega
    | back resumed made => cases counts
    | @signal os c p s runs op made =>
      obtain rfl := Option.some.inj counts
      have returned := I.returned (.inl r)
      have more := few _ (abstract.step (.signal op)) r
      have paid := returns_le small ih r
      simp only [update_self, abs] at more
      simp only [initial, Sum.elim_inl] at total
      change (st.os.kernel.sem (.inl r)).count < intMax
      push_cast at more
      omega

def sampleBoot (v : σ → Nat) (u : τ → Nat) : State Bool σ τ Nat Out N where
  os := {
    kernel := {
      task := fun _ => ⟨0, 0, 0, 0⟩
      tasks := fun _ => none
      cntTasks := 0
      cputask := fun _ => none
      cputaskLast := fun _ => none
      notdefault := fun _ => false
      sem := fun s => ⟨initial v u s, 0, 0⟩
      node := fun _ => ⟨.task 0, 0, 0⟩
      nodes := [] }
    lockOs := none
    created := fun _ => false
    resumed := .cpudefault
    lastTrap := fun _ => 0
    phase := fun _ => .code
    signalled := fun _ => false
    calls := fun _ => []
    waits := fun _ => 0
    returns := fun _ => 0
    signals := fun _ => 0 }
  pc := fun _ => 0
  out := []

theorem sampleBoot_init (prog : Fin N → List (Op (σ ⊕ τ) Out)) (v : σ → Nat) (u : τ → Nat) :
    (machine prog v u).Init (sampleBoot v u) :=
  ⟨⟨rfl, rfl, rfl, rfl, fun _ => ⟨rfl, rfl⟩, rfl, rfl, rfl, rfl, fun _ => rfl, rfl, rfl, rfl, rfl, rfl⟩, rfl, rfl⟩

/-- As long as no count wraps, the programs run as they would on counting semaphores, and the kernel keeps all of them
asleep only where none of them could go on there. -/
theorem reachable_counting (small : ∀ r, (v r : Int) ≤ intMax) (run : (counting prog v u).Reachable st) :
    (Permits.machine prog v).Reachable (abs v st) ∧
    ((∀ p : Fin N, st.os.created (.task p) = true) → (∀ p : Fin N, (st.os.kernel.task (.task p)).sleep = 1) →
      Stuck prog (abs v st)) :=
  ⟨reachable_abs small run, asleep_stuck small run⟩

def sampleProgram : Fin 1 → List (Op (Unit ⊕ Empty) Char) := fun _ => [.wait (.inl ())]

/-- The only task waits on a semaphore of value 0. -/
theorem reachable_counting_sample : ∃ st : State Bool Unit Empty Nat Char 1,
    (∀ p : Fin 1, (st.os.kernel.task (.task p)).sleep = 1) ∧ Stuck sampleProgram (abs (fun _ => 0) st) := by
  have boot : (counting sampleProgram (fun _ => 0) Empty.elim).Reachable (sampleBoot (fun _ => 0) Empty.elim) :=
    .init (sampleBoot_init sampleProgram _ _)
  have created := boot.step ⟨small_other rfl,
    .foreign (by trivial) (@Kmt.Step.create Bool (Unit ⊕ Empty) Nat _ _ _ 0 3 5 rfl)⟩
  have trapped := created.step ⟨small_other rfl,
    .foreign (by trivial) (@Kmt.Step.save Bool (Unit ⊕ Empty) Nat _ _ _ _ false .yield 7 rfl (by decide) rfl)⟩
  have running := trapped.step ⟨small_other rfl,
    .foreign (by trivial) (@Kmt.Step.switch Bool (Unit ⊕ Empty) Nat _ _ _ _ _ 2 _ _ rfl
      (kmtContextSwitch_eq _ _ _ (.task 0) (by decide +kernel)))⟩
  have called := running.step ⟨fun k hk r counts => ?_, .call (p := 0) ⟨rfl, by decide, rfl⟩ rfl
    (@Kmt.Step.wait Bool (Unit ⊕ Empty) Nat _ _ _ _ false (.inl ()) 0 16 true (by decide) rfl rfl (by decide) rfl)⟩
  · have only (p : Fin 1) : p = 0 := Fin.fin_one_eq_zero p
    refine ⟨_, fun p => ?_, (reachable_counting (fun _ => by decide) called).2 (fun p => ?_) fun p => ?_⟩ <;>
      rw [only p] <;> rfl
  · obtain rfl := Option.some.inj hk
    change -intMax < (0 : Int)
    decide

end OsLabs.Kmt.Programs

import Mathlib.Algebra.Order.BigOperators.Group.Finset
import Mathlib.Data.List.Infix
import OsLabs.Kmt.Programs

/-!
# The producers and consumers of the kernel tests

`test_pc.c`: producers print `(` and consumers `)`, with `empty` and `fill` between them.
`test_tty_pc.c`: one permit goes back and forth between the producers and the customers,
who write to the terminal while they hold `mutex`; the writes also take the lock of the
terminal, which its own task and the shell take as well. Both for any number of tasks of
each kind, on any number of CPUs.
-/

namespace OsLabs.Kmt.Programs
open Function Permits

variable {N : Nat} {τ : Type}

/-! ### Parentheses -/

inductive PcSem where
  | empty | fill
  deriving DecidableEq

instance : Fintype PcSem := ⟨{.empty, .fill}, fun s => by cases s <;> decide⟩

inductive PcTask where
  | producer | consumer

def pcProgram : PcTask → List (Op (PcSem ⊕ τ) Char)
  | .producer => [.wait (.inl .empty), .emit '(', .signal (.inl .fill)]
  | .consumer => [.wait (.inl .fill), .emit ')', .signal (.inl .empty)]

/-- `main` gives `n = 10`. -/
def pcInit (n : Nat) : PcSem → Nat
  | .empty => n
  | .fill => 0

/-- What `(` and `)` add to the depth. -/
def depth : Char → Int
  | '(' => 1
  | ')' => -1
  | _ => 0

/-- A permit of `fill`, and the task on its way from one to a parenthesis or back, stand for an open parenthesis. -/
def openPlace : PcTask → Nat → Int
  | .producer, 2 => 1
  | .consumer, 1 => 1
  | _, _ => 0

def openToken : PcSem → Int
  | .fill => 1
  | .empty => 0

/-- A permit of `empty`, and the task on its way to or from one, stand for a parenthesis that can still be opened. -/
def roomPlace : PcTask → Nat → Int
  | .producer, 1 => 1
  | .consumer, 2 => 1
  | _, _ => 0

def roomToken : PcSem → Int
  | .empty => 1
  | .fill => 0

variable {kind : Fin N → PcTask} {n : Nat} {st : Permits.State (Fin N) PcSem Char}

theorem pcProgram_op {t : PcTask} {i : Nat} {op : Op (PcSem ⊕ τ) Char} (h : (pcProgram t)[i]? = some op) :
    (i = 0 ∨ i = 1 ∨ i = 2) ∧ next (@pcProgram τ t) i = (i + 1) % 3 := by
  have small : i < 3 := by
    have := (List.getElem?_eq_some_iff.mp h).1
    cases t <;> exact this
  have length : (@pcProgram τ t).length = 3 := by cases t <;> rfl
  unfold next
  rw [length]
  split <;> omega

/-- The three operations of each program, one after the other. -/
theorem pc_balanced {place : PcTask → Nat → Int} {token : PcSem → Int} {worth : Char → Int}
    (producer : place .producer 1 = place .producer 0 + token .empty ∧
      place .producer 2 = place .producer 1 + worth '(' ∧ place .producer 0 = place .producer 2 + -token .fill)
    (consumer : place .consumer 1 = place .consumer 0 + token .fill ∧
      place .consumer 2 = place .consumer 1 + worth ')' ∧ place .consumer 0 = place .consumer 2 + -token .empty) :
    Balanced (@pcProgram τ ∘ kind) (place ∘ kind) token worth := by
  intro p i op h
  simp only [comp_apply] at h ⊢
  obtain ⟨at_, following⟩ := pcProgram_op h
  rw [following]
  cases task : kind p <;> rw [task] at h <;> rcases at_ with rfl | rfl | rfl <;> cases h
  · exact producer.1
  · exact producer.2.1
  · exact producer.2.2
  · exact consumer.1
  · exact consumer.2.1
  · exact consumer.2.2

theorem open_balanced : Balanced (@pcProgram τ ∘ kind) (openPlace ∘ kind) openToken depth :=
  pc_balanced ⟨rfl, rfl, rfl⟩ ⟨rfl, rfl, rfl⟩

theorem room_balanced : Balanced (@pcProgram τ ∘ kind) (roomPlace ∘ kind) roomToken (fun o => -depth o) :=
  pc_balanced ⟨rfl, rfl, rfl⟩ ⟨rfl, rfl, rfl⟩

theorem sum_neg_depth (l : List Char) : (l.map fun o => -depth o).sum = -(l.map depth).sum := by
  induction l with
  | nil => rfl
  | cons o l ih =>
    simp only [List.map_cons, List.sum_cons, ih]
    omega

/-- The open parentheses and the room for more, as the semaphores and the tasks hold them. -/
theorem reachable_depth (run : (Permits.machine (@pcProgram τ ∘ kind) (pcInit n)).Reachable st) :
    (st.out.map depth).sum = ∑ p, openPlace (kind p) (st.pc p) + st.permits .fill ∧
    n - (st.out.map depth).sum = ∑ p, roomPlace (kind p) (st.pc p) + st.permits .empty := by
  have opened := reachable_total open_balanced run
  have room := reachable_total room_balanced run
  have start (t : PcTask) : openPlace t 0 = 0 ∧ roomPlace t 0 = 0 := by cases t <;> exact ⟨rfl, rfl⟩
  have sems (f : PcSem → Int) : ∑ s, f s = f .empty + f .fill := by
    rw [show (Finset.univ : Finset PcSem) = {.empty, .fill} from rfl, Finset.sum_pair (by decide)]
  simp only [comp_apply, start, Finset.sum_const_zero, sems, openToken, roomToken, pcInit, sum_neg_depth] at opened room
  omega

theorem openPlace_nonneg (t : PcTask) (i : Nat) : 0 ≤ openPlace t i := by
  unfold openPlace
  split <;> decide

theorem roomPlace_nonneg (t : PcTask) (i : Nat) : 0 ≤ roomPlace t i := by
  unfold roomPlace
  split <;> decide

theorem reachable_depth_le (run : (Permits.machine (@pcProgram τ ∘ kind) (pcInit n)).Reachable st) :
    0 ≤ (st.out.map depth).sum ∧ (st.out.map depth).sum ≤ n := by
  obtain ⟨opened, room⟩ := reachable_depth run
  have : 0 ≤ ∑ p, openPlace (kind p) (st.pc p) := Finset.sum_nonneg fun p _ => openPlace_nonneg _ _
  have : 0 ≤ ∑ p, roomPlace (kind p) (st.pc p) := Finset.sum_nonneg fun p _ => roomPlace_nonneg _ _
  omega

theorem reachable_permits_le (run : (Permits.machine (@pcProgram τ ∘ kind) (pcInit n)).Reachable st) (r : PcSem) :
    st.permits r ≤ n := by
  obtain ⟨opened, room⟩ := reachable_depth run
  obtain ⟨low, high⟩ := reachable_depth_le run
  have : 0 ≤ ∑ p, openPlace (kind p) (st.pc p) := Finset.sum_nonneg fun p _ => openPlace_nonneg _ _
  have : 0 ≤ ∑ p, roomPlace (kind p) (st.pc p) := Finset.sum_nonneg fun p _ => roomPlace_nonneg _ _
  cases r <;> omega

/-- With a task of each kind and room for one parenthesis some task can go on. -/
theorem reachable_not_stuck (room : 0 < n) (producer : ∃ p, kind p = .producer) (consumer : ∃ p, kind p = .consumer)
    (run : (Permits.machine (@pcProgram τ ∘ kind) (pcInit n)).Reachable st) : ¬Stuck (@pcProgram τ ∘ kind) st := by
  intro stuck
  have waits (p : Fin N) : st.pc p = 0 := by
    obtain ⟨s, op, -⟩ := stuck p
    simp only [comp_apply] at op
    obtain ⟨place, -⟩ := pcProgram_op op
    cases h : kind p <;> rcases place with at_ | at_ | at_ <;> rw [h, at_] at op <;> first | exact at_ | cases op
  obtain ⟨p, isProducer⟩ := producer
  obtain ⟨q, isConsumer⟩ := consumer
  obtain ⟨s, op, empty⟩ := stuck p
  obtain ⟨s', op', fill⟩ := stuck q
  simp only [comp_apply, waits, isProducer, isConsumer, pcProgram, List.getElem?_cons_zero, Option.some.injEq,
    Op.wait.injEq] at op op'
  have empty := empty .empty op.symm
  have fill := fill .fill op'.symm
  obtain ⟨opened, left⟩ := reachable_depth run
  have start (t : PcTask) : openPlace t 0 = 0 ∧ roomPlace t 0 = 0 := by cases t <;> exact ⟨rfl, rfl⟩
  simp only [waits, start, Finset.sum_const_zero] at opened left
  omega

section Kernel

variable {Cpu Ctx : Type} [DecidableEq Cpu] [DecidableEq τ] {u : τ → Nat} {st : State Cpu PcSem τ Ctx Char N}

/-- The output of `test_pc.c` never closes what is not open and never has more than `n` parentheses open, and not all of
its tasks sleep at once. -/
theorem reachable_parentheses (tasks : (N : Int) < intMax) (small : (n : Int) ≤ intMax)
    (run : (machine (pcProgram ∘ kind) (pcInit n) u).Reachable st) :
    (∀ l, l <+: st.out → 0 ≤ (l.map depth).sum ∧ (l.map depth).sum ≤ n) ∧
    (0 < n → (∃ p, kind p = .producer) → (∃ p, kind p = .consumer) →
      (∀ p : Fin N, st.os.created (.task p) = true) → ∃ p : Fin N, (st.os.kernel.task (.task p)).sleep ≠ 1) := by
  have inits (r : PcSem) : (pcInit n r : Int) ≤ intMax := by cases r <;> simp only [pcInit, intMax] at * <;> omega
  have few (a : Permits.State (Fin N) PcSem Char)
      (reached : (Permits.machine (@pcProgram τ ∘ kind) (pcInit n)).Reachable a)
      (r : PcSem) : (a.permits r : Int) ≤ intMax := by
    have le := reachable_permits_le reached r
    omega
  have counted := reachable_small tasks inits few run
  have abstract := reachable_abs inits counted
  refine ⟨prefix_reachable (fun _ => reachable_depth_le) abstract, fun room producer consumer created => ?_⟩
  by_contra asleep
  push Not at asleep
  exact reachable_not_stuck room producer consumer abstract (asleep_stuck inits counted created asleep)

/-- A producer is created, gets a CPU, and prints. -/
theorem reachable_parentheses_sample : ∃ st : State Bool PcSem Empty Nat Char 2,
    st.out = ['('] ∧ ∀ l, l <+: st.out → 0 ≤ (l.map depth).sum ∧ (l.map depth).sum ≤ (10 : Nat) := by
  have boot :=
    Machine.Reachable.init (sampleBoot_init (pcProgram ∘ ![PcTask.producer, .consumer]) (pcInit 10) Empty.elim)
  have created := boot.step (.foreign (by trivial) (@Kmt.Step.create Bool (PcSem ⊕ Empty) Nat _ _ _ 0 3 5 rfl))
  have trapped := created.step (.foreign (by trivial)
    (@Kmt.Step.save Bool (PcSem ⊕ Empty) Nat _ _ _ _ false .yield 7 rfl (by decide) rfl))
  have running := trapped.step (.foreign (by trivial) (@Kmt.Step.switch Bool (PcSem ⊕ Empty) Nat _ _ _ _ _ 2 _ _ rfl
    (kmtContextSwitch_eq _ _ _ (.task 0) (by decide +kernel))))
  have called := running.step (.call (p := 0) ⟨rfl, by decide, rfl⟩ rfl
    (@Kmt.Step.wait Bool (PcSem ⊕ Empty) Nat _ _ _ _ false (.inl .empty) 0 16 false (by decide) rfl rfl
      (by decide) rfl))
  have returned := called.step (.back (p := 0) rfl
    (@Kmt.Step.leave Bool (PcSem ⊕ Empty) Nat _ _ _ false (.inl .empty) (by decide) (.inl rfl)))
  have printed := returned.step (.emit (c := false) (p := 0) ⟨rfl, by decide, rfl⟩ rfl)
  exact ⟨_, rfl, (reachable_parentheses (by decide) (by decide) printed).1⟩

end Kernel

/-! ### Sentences -/

inductive TtySem where
  | semP | semC | mutex
  deriving DecidableEq

/-- A customer writes the argument it was created with. -/
inductive TtyTask where
  | producer
  | customer (arg : List Char)

namespace TtyTask

def get : TtyTask → TtySem
  | producer => .semP
  | customer _ => .semC

def put : TtyTask → TtySem
  | producer => .semC
  | customer _ => .semP

def text : TtyTask → List Char
  | producer => "I love ".toList
  | customer arg => arg

theorem get_ne_mutex (t : TtyTask) : t.get ≠ .mutex := by cases t <;> exact TtySem.noConfusion

end TtyTask

/-- `tty_write`, and the `tty_render` that it ends with; both take the lock of the terminal. -/
def ttyWrite (lock : τ) (text : List Char) : List (Op (TtySem ⊕ τ) Char) :=
  .wait (.inr lock) :: (text.map .emit ++ [.signal (.inr lock), .wait (.inr lock), .signal (.inr lock)])

def ttyProgram (lock : τ) (t : TtyTask) : List (Op (TtySem ⊕ τ) Char) :=
  .wait (.inl t.get) :: .wait (.inl .mutex) :: (ttyWrite lock t.text ++ [.signal (.inl .mutex), .signal (.inl t.put)])

def ttyInit : TtySem → Nat
  | .semP => 1
  | .semC => 0
  | .mutex => 1

section Sentences

variable {lock : τ} {kind : Fin N → TtyTask} {st st' : Permits.State (Fin N) TtySem Char}

/-- The texts written so far, each in its turn, and the semaphore that has the permit for the next. -/
inductive Spoken (kind : Fin N → TtyTask) : List Char → TtySem → Prop where
  | start : Spoken kind [] .semP
  | turn {l : List Char} (p : Fin N) (before : Spoken kind l (kind p).get) :
      Spoken kind (l ++ (kind p).text) (kind p).put

/-- One permit of `sem_p` or `sem_c`, or one task that took it and has not passed it on. -/
inductive Baton (kind : Fin N → TtyTask) (st : Permits.State (Fin N) TtySem Char) : Prop where
  | free {s : TtySem} (spoken : Spoken kind st.out s) (start : ∀ p, st.pc p = 0)
      (permits : ∀ r, st.permits r = if r = s ∨ r = .mutex then 1 else 0)
  | held {p : Fin N} {l : List Char} (spoken : Spoken kind l (kind p).get)
      (inside : 0 < st.pc p ∧ st.pc p < (kind p).text.length + 8) (start : ∀ q, q ≠ p → st.pc q = 0)
      (permits : ∀ r, st.permits r =
        if r = .mutex ∧ (st.pc p = 1 ∨ st.pc p = (kind p).text.length + 7) then 1 else 0)
      (out : st.out = l ++ (kind p).text.take (st.pc p - 3))

theorem ttyProgram_length (t : TtyTask) : (ttyProgram lock t).length = t.text.length + 8 := by
  simp only [ttyProgram, ttyWrite, List.length_cons, List.length_append, List.length_map, List.length_nil]

/-- A task can begin its turn only while the permit is free, and it takes it. -/
theorem Baton.start {p : Fin N} {r : TtySem} (B : Baton kind st) (at_ : st.pc p = 0)
    (op : (ttyProgram lock (kind p))[st.pc p]? = some (.wait (.inl r))) (permit : 0 < st.permits r) :
    Baton kind { st with
      pc := update st.pc p (next (ttyProgram lock (kind p)) (st.pc p))
      permits := update st.permits r (st.permits r - 1) } := by
  rw [at_] at op ⊢
  obtain rfl : r = (kind p).get := by cases op; rfl
  have second : next (ttyProgram lock (kind p)) 0 = 1 := by rw [next, ttyProgram_length, if_pos (by omega)]
  rw [second]
  cases B with
  | free spoken start permits =>
    rename_i s
    have same : (kind p).get = s := by
      by_contra other
      rw [permits, if_neg fun h => h.elim other (kind p).get_ne_mutex] at permit
      cases permit
    have notMutex := (kind p).get_ne_mutex
    refine .held (p := p) (same ▸ spoken) (by simp) (fun q other => by simp [other, start]) (fun r => ?_) (by simp)
    simp only [update_self, true_or, and_true]
    by_cases here : r = (kind p).get
    · subst here
      simp [permits, same, same ▸ notMutex]
    · simp only [update_of_ne here, permits, show r ≠ s from same ▸ here, false_or]
  | held spoken inside start permits out =>
    rw [permits, if_neg fun h => (kind p).get_ne_mutex h.1] at permit
    cases permit

end Sentences

section Kernel

variable {Cpu Ctx : Type} [DecidableEq Cpu] [DecidableEq τ] {u : τ → Nat} {lock : τ} {kind : Fin N → TtyTask}
  {st : State Cpu TtySem τ Ctx Char N}

end Kernel

end OsLabs.Kmt.Programs

import Mathlib.Algebra.BigOperators.Fin
import Mathlib.Algebra.BigOperators.Group.Finset.Basic
import Mathlib.Algebra.BigOperators.Ring.Finset
import Mathlib.Logic.Function.Basic
import Mathlib.Tactic.Ring
import OsLabs.Data.Machine

/-!
# Programs that share counting semaphores

Each process repeats a list of operations. A semaphore is the number of its permits;
of those that others use as well nothing is known, and a wait for one of them may end at
any time. A weight on the places of the programs and on the permits that every operation keeps
in balance gives a quantity that no run changes; the bounds on what the processes hold
and put out, and the absence of deadlocks, are read off such quantities.
-/

namespace OsLabs.Permits
open Function

inductive Op (Sem Out : Type*) where
  | wait (s : Sem)
  | signal (s : Sem)
  | emit (o : Out)

/-- The place of each process in its program, the permits left, and what was put out, in order. -/
structure State (Proc Sem Out : Type*) where
  pc : Proc → Nat
  permits : Sem → Nat
  out : List Out

variable {Proc Sem Shared Out : Type*} {prog : Proc → List (Op (Sem ⊕ Shared) Out)} {v : Sem → Nat}
  {st st' : State Proc Sem Out}
  {p : Proc} {s : Sem} {i : Nat}

/-- The place after `i` in a program that starts again at its end. -/
def next (l : List (Op (Sem ⊕ Shared) Out)) (i : Nat) : Nat := if i + 1 < l.length then i + 1 else 0

variable [DecidableEq Proc] [DecidableEq Sem]

inductive Step (prog : Proc → List (Op (Sem ⊕ Shared) Out)) :
    State Proc Sem Out → Proc → State Proc Sem Out → Prop where
  | wait {st : State Proc Sem Out} {p : Proc} {s : Sem} (op : (prog p)[st.pc p]? = some (.wait (.inl s)))
      (free : 0 < st.permits s) :
      Step prog st p { st with
        pc := update st.pc p (next (prog p) (st.pc p))
        permits := update st.permits s (st.permits s - 1) }
  | signal {st : State Proc Sem Out} {p : Proc} {s : Sem} (op : (prog p)[st.pc p]? = some (.signal (.inl s))) :
      Step prog st p { st with
        pc := update st.pc p (next (prog p) (st.pc p))
        permits := update st.permits s (st.permits s + 1) }
  | pass {st : State Proc Sem Out} {p : Proc} {r : Shared}
      (op : (prog p)[st.pc p]? = some (.wait (.inr r)) ∨ (prog p)[st.pc p]? = some (.signal (.inr r))) :
      Step prog st p { st with pc := update st.pc p (next (prog p) (st.pc p)) }
  | emit {st : State Proc Sem Out} {p : Proc} {o : Out} (op : (prog p)[st.pc p]? = some (.emit o)) :
      Step prog st p { st with
        pc := update st.pc p (next (prog p) (st.pc p))
        out := st.out ++ [o] }

/-- Every process at the start of its program, and `v s` permits of each semaphore. -/
def machine (prog : Proc → List (Op (Sem ⊕ Shared) Out)) (v : Sem → Nat) : Machine (State Proc Sem Out) Proc where
  Init st := st = ⟨fun _ => 0, v, []⟩
  Step := Step prog

/-- Every process waits, and where it waits for a permit that only processes hold there is none. -/
def Stuck (prog : Proc → List (Op (Sem ⊕ Shared) Out)) (st : State Proc Sem Out) : Prop :=
  ∀ p, ∃ s, (prog p)[st.pc p]? = some (.wait s) ∧ ∀ r, s = .inl r → st.permits r = 0

/-- What was put out so far was all of it once. -/
theorem prefix_reachable {P : List Out → Prop} (always : ∀ st, (machine prog v).Reachable st → P st.out)
    (run : (machine prog v).Reachable st) : ∀ l, l <+: st.out → P l := by
  induction run with
  | init h =>
    intro l pre
    subst h
    rw [List.prefix_nil.mp pre]
    exact always _ (.init rfl)
  | step before step ih =>
    have now := always _ (before.step step)
    cases step with
    | wait op free => exact ih
    | signal op => exact ih
    | pass op => exact ih
    | emit op =>
      intro l pre
      rcases List.prefix_concat_iff.mp pre with rfl | earlier
      · exact now
      · exact ih l earlier

/-! ### Conserved quantities -/

/-- What an operation adds to the weight of its process: a permit brings its weight along. -/
def gain (token : Sem → Int) (worth : Out → Int) : Op (Sem ⊕ Shared) Out → Int
  | .wait (.inl s) => token s
  | .signal (.inl s) => -token s
  | .wait (.inr _) | .signal (.inr _) => 0
  | .emit o => worth o

/-- The weight of each process changes as its operations say. -/
def Balanced (prog : Proc → List (Op (Sem ⊕ Shared) Out)) (place : Proc → Nat → Int) (token : Sem → Int)
    (worth : Out → Int) : Prop :=
  ∀ p i op, (prog p)[i]? = some op → place p (next (prog p) i) = place p i + gain token worth op

variable [Fintype Proc] [Fintype Sem] {place : Proc → Nat → Int} {token : Sem → Int} {worth : Out → Int}

/-- The weight of the processes and of the permits, less what was put out. -/
def total (place : Proc → Nat → Int) (token : Sem → Int) (worth : Out → Int) (st : State Proc Sem Out) : Int :=
  ∑ p, place p (st.pc p) + ∑ s, token s * st.permits s - (st.out.map worth).sum

theorem sum_update {ι α : Type*} [Fintype ι] [DecidableEq ι] (f : ι → α → Int) (g : ι → α) (p : ι) (a : α) :
    ∑ q, f q (update g p a q) = ∑ q, f q (g q) + (f p a - f p (g p)) := by
  have others : ∑ q ∈ Finset.univ.erase p, f q (update g p a q) = ∑ q ∈ Finset.univ.erase p, f q (g q) := by
    apply Finset.sum_congr rfl
    intro q hq
    rw [update_of_ne (Finset.ne_of_mem_erase hq)]
  rw [← Finset.sum_erase_add _ _ (Finset.mem_univ p), ← Finset.sum_erase_add (a := p) _ _ (Finset.mem_univ p),
    others, update_self]
  ring

theorem step_total (balanced : Balanced prog place token worth) (step : Step prog st p st') :
    total place token worth st' = total place token worth st := by
  unfold total
  cases step with
  | wait op free =>
    rename_i s
    have less : ((st.permits s - 1 : Nat) : Int) = st.permits s - 1 := by omega
    rw [sum_update place, sum_update (fun s (n : Nat) => token s * n), balanced p _ _ op, less]
    simp only [gain]
    ring
  | signal op =>
    rw [sum_update place, sum_update (fun s (n : Nat) => token s * n), balanced p _ _ op]
    simp only [gain]
    push_cast
    ring
  | pass op =>
    rw [sum_update place]
    rcases op with op | op <;> rw [balanced _ _ _ op] <;> simp only [gain] <;> ring
  | emit op =>
    rw [sum_update place, balanced p _ _ op]
    simp only [gain, List.map_append, List.sum_append, List.map_singleton, List.sum_singleton]
    ring

theorem reachable_total (balanced : Balanced prog place token worth) (run : (machine prog v).Reachable st) :
    ∑ p, place p (st.pc p) + ∑ s, token s * st.permits s =
      ∑ p, place p 0 + ∑ s, token s * v s + (st.out.map worth).sum := by
  have same : total place token worth st = total place token worth ⟨fun _ => 0, v, []⟩ := by
    refine run.induct (fun st => total place token worth st = total place token worth ⟨fun _ => 0, v, []⟩)
      (fun st init => ?_) (fun st p st' before step => ?_)
    · exact congrArg _ init
    · exact (step_total balanced step).trans before
  simp only [total, List.map_nil, List.sum_nil] at same
  omega

end OsLabs.Permits

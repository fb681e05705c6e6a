import Mathlib.Order.Defs.PartialOrder

/-! State machines with labelled steps, and the induction over their runs. -/

namespace OsLabs

/-- A state machine: its initial states and its labelled steps. -/
structure Machine (State Label : Type*) where
  Init : State → Prop
  Step : State → Label → State → Prop

namespace Machine

variable {State Label : Type*} {M : Machine State Label} {s : State}

inductive Reachable (M : Machine State Label) : State → Prop where
  | init {s : State} : M.Init s → Reachable M s
  | step {s t : State} {l : Label} : Reachable M s → M.Step s l t → Reachable M t

/-- What holds initially and is kept by every step holds in every reachable state. -/
theorem Reachable.induct (Inv : State → Prop) (base : ∀ s, M.Init s → Inv s)
    (keep : ∀ s l t, Inv s → M.Step s l t → Inv t) (h : M.Reachable s) : Inv s := by
  induction h with
  | init h => exact base _ h
  | step _ hs ih => exact keep _ _ _ ih hs

/-- The same, for a property whose preservation needs the state to be reachable. -/
theorem Reachable.induct_reachable (Inv : State → Prop) (base : ∀ s, M.Init s → Inv s)
    (keep : ∀ s l t, M.Reachable s → Inv s → M.Step s l t → Inv t) (h : M.Reachable s) : Inv s := by
  induction h with
  | init h => exact base _ h
  | step hr hs ih => exact keep _ _ _ hr ih hs

/-- The steps of a machine that meet a condition. -/
def restrict (M : Machine State Label) (Meets : State → Label → Prop) : Machine State Label where
  Init := M.Init
  Step s l t := Meets s l ∧ M.Step s l t

theorem Reachable.of_restrict {Meets : State → Label → Prop} (h : (M.restrict Meets).Reachable s) : M.Reachable s := by
  induction h with
  | init h => exact .init h
  | step _ made ih => exact ih.step made.2

/-- A machine each of whose steps another one makes, or skips, reaches only states that stand for reachable ones. -/
theorem Reachable.simulate {State' Label' : Type*} {N : Machine State' Label'} (abs : State → State')
    (base : ∀ s, M.Init s → N.Init (abs s))
    (keep : ∀ s l t, M.Reachable s → M.Step s l t → abs t = abs s ∨ ∃ l', N.Step (abs s) l' (abs t))
    (h : M.Reachable s) : N.Reachable (abs s) := by
  induction h with
  | init h => exact .init (base _ h)
  | step hr hs ih =>
    rcases keep _ _ _ hr hs with same | ⟨l', made⟩
    · rw [same]; exact ih
    · exact ih.step made

/-- A run from an initial state, with the labels of its steps in order. -/
inductive Trace (M : Machine State Label) : List Label → State → Prop where
  | init {s : State} : M.Init s → Trace M [] s
  | step {ls : List Label} {s t : State} {l : Label} : Trace M ls s → M.Step s l t → Trace M (ls ++ [l]) t

/-- A machine whose steps another one makes under the same labels has only traces of that one. -/
theorem Trace.simulate {State' : Type*} {N : Machine State' Label} {ls : List Label} (R : State → State' → Prop)
    (base : ∀ s, M.Init s → ∃ s', N.Init s' ∧ R s s')
    (keep : ∀ s l t s', R s s' → M.Step s l t → ∃ t', N.Step s' l t' ∧ R t t')
    (h : M.Trace ls s) : ∃ s', N.Trace ls s' ∧ R s s' := by
  induction h with
  | init h =>
    obtain ⟨s', init, related⟩ := base _ h
    exact ⟨s', .init init, related⟩
  | step _ made ih =>
    obtain ⟨s', trace, related⟩ := ih
    obtain ⟨t', made', related⟩ := keep _ _ _ _ related made
    exact ⟨t', trace.step made', related⟩

end Machine

end OsLabs

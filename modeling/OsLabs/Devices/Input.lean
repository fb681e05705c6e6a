import OsLabs.Data.Machine
import OsLabs.Data.Ring

/-!
# The input device's event queue

The ring and the counting semaphore change in separate steps, so calls sit
between the two: a push whose event is stored but not signalled, a pop that has
taken its token but not its event.
-/

namespace OsLabs.Devices
open Function

variable {Event : Type}

def nevents : Nat := 128

inductive Panic where
  | inputQueueFull
  | inputQueueEmpty
  deriving DecidableEq, Repr

structure Input (Event : Type) where
  events : Nat → Event
  front : Nat
  rear : Nat
  eventSem : Nat

/-- The section of `push_event` under `in->lock`. -/
def pushEvent (q : Input Event) (ev : Event) : Input Event × Option Panic :=
  let q := { q with events := update q.events q.rear ev, rear := (q.rear + 1) % nevents }
  (q, if q.rear = q.front then some .inputQueueFull else none)

/-- The section of `pop_event` under `in->lock`. -/
def popEvent (q : Input Event) : Except Panic (Input Event × Event) :=
  if q.rear = q.front then .error .inputQueueEmpty
  else
    let idx := q.front
    .ok ({ q with front := (q.front + 1) % nevents }, q.events idx)

def Input.contents (q : Input Event) : List Event :=
  ringContents nevents q.events q.front q.rear

/-- Where a call of `push_event` or `pop_event` stands. -/
inductive Call (Event : Type) where
  | store (ev : Event)
  | signal
  | wait
  | read

inductive Label (Event : Type) where
  | enter (call : Call Event)
  | run (call : Call Event)

/-- The device, the calls in flight, and the events stored and returned so far. -/
structure State (Event : Type) where
  input : Input Event
  calls : List (Call Event)
  stored : List Event
  returned : List Event
  panic : Option Panic

inductive Step : State Event → Label Event → State Event → Prop
  | push {s : State Event} (ev : Event) : s.panic = none →
      Step s (.enter (.store ev)) { s with calls := .store ev :: s.calls }
  | pop {s : State Event} : s.panic = none →
      Step s (.enter .wait) { s with calls := .wait :: s.calls }
  | store {s : State Event} {ev : Event} {l₁ l₂ : List (Call Event)} : s.panic = none →
      s.calls = l₁ ++ .store ev :: l₂ →
      Step s (.run (.store ev)) { s with
        input := (pushEvent s.input ev).1
        panic := (pushEvent s.input ev).2
        calls := l₁ ++ .signal :: l₂
        stored := s.stored ++ [ev] }
  | signal {s : State Event} {l₁ l₂ : List (Call Event)} : s.panic = none →
      s.calls = l₁ ++ .signal :: l₂ →
      Step s (.run .signal) { s with
        input := { s.input with eventSem := s.input.eventSem + 1 }
        calls := l₁ ++ l₂ }
  | wait {s : State Event} {l₁ l₂ : List (Call Event)} : s.panic = none →
      s.calls = l₁ ++ .wait :: l₂ → 0 < s.input.eventSem →
      Step s (.run .wait) { s with
        input := { s.input with eventSem := s.input.eventSem - 1 }
        calls := l₁ ++ .read :: l₂ }
  | read {s : State Event} {q : Input Event} {ev : Event} {l₁ l₂ : List (Call Event)} : s.panic = none →
      s.calls = l₁ ++ .read :: l₂ → popEvent s.input = .ok (q, ev) →
      Step s (.run .read) { s with
        input := q
        calls := l₁ ++ l₂
        returned := s.returned ++ [ev] }
  | empty {s : State Event} {p : Panic} {l₁ l₂ : List (Call Event)} : s.panic = none →
      s.calls = l₁ ++ .read :: l₂ → popEvent s.input = .error p →
      Step s (.run .read) { s with panic := some p }

def inputs (Event : Type) : Machine (State Event) (Label Event) where
  Init s := s.input.front = s.input.rear ∧ s.input.rear < nevents ∧ s.input.eventSem = 0 ∧ s.calls = [] ∧
    s.stored = [] ∧ s.returned = [] ∧ s.panic = none
  Step := Step

variable {s t : State Event} {q : Input Event} {ev : Event} {l : List Event}

/-! ### The locked sections on the contents -/

def Input.Holds (q : Input Event) (l : List Event) : Prop :=
  Ring nevents q.events q.front q.rear l

theorem Input.Holds.contents_eq (h : q.Holds l) : q.contents = l :=
  Ring.ringContents_eq h

theorem pushEvent_full (h : q.Holds l) :
    (pushEvent q ev).2 = some .inputQueueFull ↔ l.length + 1 = nevents := by
  rw [← Ring.full_iff h]
  simp [pushEvent]

theorem pushEvent_panic (h : (pushEvent q ev).2 ≠ none) : (pushEvent q ev).2 = some .inputQueueFull := by
  simp only [pushEvent] at h ⊢
  split
  · rfl
  · rename_i apart
    exact absurd (if_neg apart) h

theorem pushEvent_holds (h : q.Holds l) (ok : (pushEvent q ev).2 = none) :
    (pushEvent q ev).1.Holds (l ++ [ev]) := by
  have free : l.length + 1 ≠ nevents := by
    intro full
    rw [(pushEvent_full h).mpr full] at ok
    cases ok
  have bound := h.room
  exact Ring.push h (by omega)

theorem popEvent_nil (h : q.Holds []) : popEvent q = .error .inputQueueEmpty := by
  unfold popEvent
  rw [if_pos ((Ring.empty_iff h).mpr rfl)]

theorem popEvent_cons (h : q.Holds (ev :: l)) :
    ∃ q', popEvent q = .ok (q', ev) ∧ q'.Holds l ∧ q'.eventSem = q.eventSem := by
  obtain ⟨first, rest⟩ := Ring.pop h
  have nonempty : q.rear ≠ q.front := by
    intro same
    cases (Ring.empty_iff h).mp same
  refine ⟨{ q with front := (q.front + 1) % nevents }, ?_, rest, rfl⟩
  rw [popEvent, if_neg nonempty, ← first]

/-! ### Runs -/

/-- The calls for which the ring holds an event that the semaphore does not count. -/
def Call.holds : Call Event → Bool
  | .signal | .read => true
  | .store _ | .wait => false

/-- Tokens of the calls, one of them apart. -/
theorem holds_at (l₁ l₂ : List (Call Event)) (call : Call Event) : (l₁ ++ call :: l₂).countP Call.holds =
    (l₁ ++ l₂).countP Call.holds + if call.holds = true then 1 else 0 := by
  rw [List.countP_append, List.countP_cons, List.countP_append, Nat.add_assoc]

/-- The ring holds what is stored and not returned; each entry has a token or a call that is between its two steps. -/
structure Queued (s : State Event) (l : List Event) : Prop where
  ring : s.input.Holds l
  order : s.stored = s.returned ++ l
  tokens : s.input.eventSem + s.calls.countP Call.holds = l.length

def Inv (s : State Event) : Prop :=
  (s.panic = none ∧ ∃ l, Queued s l) ∨
    (s.panic = some .inputQueueFull ∧ ∃ l, s.stored = s.returned ++ l ∧ l.length = nevents)

theorem inv_step {label : Label Event} (inv : Inv s) (step : Step s label t) : Inv t := by
  obtain ⟨running, l, queued⟩ : s.panic = none ∧ ∃ l, Queued s l := by
    rcases inv with running | ⟨halted, -⟩
    · exact running
    · cases step <;> simp_all
  obtain ⟨ring, order, tokens⟩ := queued
  cases step with
  | push ev =>
    exact .inl ⟨running, l, ring, order, by simpa [Call.holds] using tokens⟩
  | pop =>
    exact .inl ⟨running, l, ring, order, by simpa [Call.holds] using tokens⟩
  | @store ev l₁ l₂ _ here =>
    cases ok : (pushEvent s.input ev).2 with
    | none =>
      refine .inl ⟨rfl, l ++ [ev], pushEvent_holds ring ok, ?_, ?_⟩
      · simp only [order, List.append_assoc]
      · rw [here, holds_at] at tokens
        rw [holds_at, List.length_append, ← tokens]
        simp [Call.holds, pushEvent, Nat.add_assoc]
    | some p =>
      have full := @pushEvent_panic _ s.input ev (by simp [ok])
      refine .inr ⟨ok.symm.trans full, l ++ [ev], ?_, ?_⟩
      · simp only [order, List.append_assoc]
      · simpa using (pushEvent_full ring).mp full
  | @signal l₁ l₂ _ here =>
    refine .inl ⟨running, l, ring, order, ?_⟩
    rw [here, holds_at] at tokens
    simp only [Call.holds, if_true] at tokens
    simp only
    omega
  | @wait l₁ l₂ _ here token =>
    refine .inl ⟨running, l, ring, order, ?_⟩
    rw [here, holds_at] at tokens
    rw [holds_at]
    simp only [Call.holds, Bool.false_eq_true, if_false, if_true] at tokens ⊢
    omega
  | @read q ev l₁ l₂ _ here done =>
    cases l with
    | nil =>
      rw [popEvent_nil ring] at done
      cases done
    | cons first l =>
      obtain ⟨q', done', rest, same⟩ := popEvent_cons ring
      rw [done] at done'
      cases done'
      refine .inl ⟨running, l, rest, ?_, ?_⟩
      · simp only [order, List.append_assoc, List.singleton_append]
      · rw [here, holds_at, List.length_cons] at tokens
        simp only [Call.holds, if_true] at tokens
        simp only [same]
        omega
  | @empty p l₁ l₂ _ here done =>
    cases l with
    | nil =>
      rw [here, holds_at] at tokens
      simp [Call.holds] at tokens
    | cons first l =>
      obtain ⟨q', done', -⟩ := popEvent_cons ring
      rw [done] at done'
      cases done'

theorem inv_reachable (h : (inputs Event).Reachable s) : Inv s := by
  refine h.induct Inv ?_ fun s label t inv step => inv_step inv step
  rintro s ⟨same, bound, count, calls, stored, returned, running⟩
  refine .inl ⟨running, [], ?_, ?_, ?_⟩
  · rw [Input.Holds, ← same]
    exact Ring.empty (same ▸ bound)
  · rw [stored, returned, List.append_nil]
  · rw [count, calls, List.countP_nil, List.length_nil]

/-- What a state shows of the queue's order and of its two panics. -/
structure Fifo (s : State Event) : Prop where
  order : s.returned <+: s.stored
  waiting : s.panic = none → s.stored = s.returned ++ s.input.contents
  drained : s.panic = none → s.input.eventSem = 0 → (∀ call ∈ s.calls, call.holds = false) → s.returned = s.stored
  notEmpty : s.panic ≠ some .inputQueueEmpty
  full : ∀ label t, Step s label t → t.panic = some .inputQueueFull →
    (∃ ev, label = .run (.store ev)) ∧ s.stored.length = s.returned.length + (nevents - 1)

theorem reachable_fifo (h : (inputs Event).Reachable s) : Fifo s := by
  have inv := inv_reachable h
  refine ⟨?_, ?_, ?_, ?_, ?_⟩
  · rcases inv with ⟨-, l, queued⟩ | ⟨-, l, order, -⟩
    · exact ⟨l, queued.order.symm⟩
    · exact ⟨l, order.symm⟩
  · intro running
    rcases inv with ⟨-, l, queued⟩ | ⟨halted, -⟩
    · rw [queued.ring.contents_eq, queued.order]
    · rw [running] at halted
      cases halted
  · intro running count idle
    rcases inv with ⟨-, l, queued⟩ | ⟨halted, -⟩
    · have tokens := queued.tokens
      rw [count, List.countP_eq_zero.mpr (by simpa using idle)] at tokens
      rw [queued.order, List.length_eq_zero_iff.mp tokens.symm, List.append_nil]
    · rw [running] at halted
      cases halted
  · rcases inv with ⟨running, -⟩ | ⟨halted, -⟩
    · simp [running]
    · simp [halted]
  · intro label t step full
    rcases inv with ⟨running, l, queued⟩ | ⟨halted, -⟩
    · cases step with
      | @store ev l₁ l₂ _ here =>
        refine ⟨⟨ev, rfl⟩, ?_⟩
        have size := (pushEvent_full queued.ring).mp full
        rw [queued.order, List.length_append]
        omega
      | @empty p l₁ l₂ _ here done =>
        have halted : Inv { s with panic := some p } :=
          inv_step (.inl ⟨running, l, queued⟩) (.empty running here done)
        rw [popEvent] at done
        split at done
        · cases done
          cases full
        · cases done
      | _ => exact absurd (running.symm.trans full) (by simp)
    · cases step <;> simp_all

/-- One event through the queue, the pop waiting before the push. -/
theorem reachable_fifo_sample : ∃ s : State Nat, s.returned = [7] ∧ Fifo s := by
  have start : (inputs Nat).Reachable ⟨⟨fun _ => 0, 0, 0, 0⟩, [], [], [], none⟩ :=
    .init ⟨rfl, by decide, rfl, rfl, rfl, rfl, rfl⟩
  have popping := start.step (.pop rfl)
  have pushing := popping.step (.push 7 rfl)
  have stored := pushing.step (.store rfl (List.nil_append _).symm)
  have signalled := stored.step (.signal rfl (List.nil_append _).symm)
  have waited := signalled.step (.wait rfl (List.nil_append _).symm (by decide))
  have read := waited.step (.read (q := ⟨_, 1, 1, 0⟩) rfl (List.nil_append _).symm rfl)
  exact ⟨_, rfl, reachable_fifo read⟩

end OsLabs.Devices

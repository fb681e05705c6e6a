/-!
# Programs that leave a trace

A computation on a state that issues events and may fail. Its events are there also
when it fails. What holds of every event is shown bind by bind, each part of a
program from the states that the parts before it end in.
-/

namespace OsLabs

/-- The events that were issued, in order, and how the computation ended. -/
structure Outcome (Event State Error α : Type) where
  events : List Event
  result : Except Error (State × α)

structure Program (Event State Error α : Type) where
  run : State → Outcome Event State Error α

variable {Event State Error α β : Type}

namespace Program

/-- The second part runs on the state that the first one leaves, if it does not fail. -/
def chain (x : Program Event State Error α) (f : α → Program Event State Error β) : Program Event State Error β where
  run s :=
    match (x.run s).result with
    | .error e => ⟨(x.run s).events, .error e⟩
    | .ok (s', a) => ⟨(x.run s).events ++ ((f a).run s').events, ((f a).run s').result⟩

instance : Monad (Program Event State Error) where
  pure a := ⟨fun s => ⟨[], .ok (s, a)⟩⟩
  bind := chain

def issue (e : Event) : Program Event State Error Unit := ⟨fun s => ⟨[e], .ok (s, ())⟩⟩

def look (f : State → α) : Program Event State Error α := ⟨fun s => ⟨[], .ok (s, f s)⟩⟩

def change (f : State → State) : Program Event State Error Unit := ⟨fun s => ⟨[], .ok (f s, ())⟩⟩

/-- A computation that leaves the state alone. -/
def lift (r : Except Error α) : Program Event State Error α := ⟨fun s => ⟨[], r.map fun a => (s, a)⟩⟩

def stop (e : Error) : Program Event State Error α := lift (.error e)

/-- A computation that looks at the state and may fail. -/
def inspect (f : State → Except Error α) : Program Event State Error α := ⟨fun s => ⟨[], (f s).map fun a => (s, a)⟩⟩

/-- A program on a part of the state, which says in its own way why it fails. -/
def zoom {Part Error' : Type} (get : State → Part) (set : Part → State → State) (err : Error' → Error)
    (x : Program Event Part Error' α) : Program Event State Error α where
  run s := ⟨(x.run (get s)).events, ((x.run (get s)).result.mapError err).map fun r => (set r.1 s, r.2)⟩

variable {x : Program Event State Error α} {f : α → Program Event State Error β} {s s' : State} {a : α} {e : Event}
  {p : Event → Prop} {err : Error}

/-! ### How a program ends -/

@[simp] theorem result_pure : ((pure a : Program Event State Error α).run s).result = .ok (s, a) := rfl

@[simp] theorem result_issue : ((issue e : Program Event State Error Unit).run s).result = .ok (s, ()) := rfl

@[simp] theorem result_change {g : State → State} :
    ((change g : Program Event State Error Unit).run s).result = .ok (g s, ()) :=
  rfl

@[simp] theorem result_stop : ((stop err : Program Event State Error α).run s).result = .error err := rfl

theorem result_inspect {g : State → Except Error α} :
    ((inspect g : Program Event State Error α).run s).result = (g s).map fun a => (s, a) := rfl

theorem result_zoom {Part Error' : Type} {get : State → Part} {set : Part → State → State} {err : Error' → Error}
    {y : Program Event Part Error' α} : ((zoom get set err y).run s).result =
      ((y.run (get s)).result.mapError err).map fun r => (set r.1 s, r.2) := rfl

theorem ok_bind {g : α → Except Error β} : (do g (← .ok a)) = g a := rfl

theorem run_bind : (x >>= f).run s = match (x.run s).result with
    | .error e => ⟨(x.run s).events, .error e⟩
    | .ok (s', a) => ⟨(x.run s).events ++ ((f a).run s').events, ((f a).run s').result⟩ := rfl

theorem result_bind : ((x >>= f).run s).result = (do let (s', a) ← (x.run s).result; ((f a).run s').result) := by
  rw [run_bind]
  cases (x.run s).result with
  | error err => rfl
  | ok done => rfl

theorem result_bind_ok (done : (x.run s).result = .ok (s', a)) : ((x >>= f).run s).result = ((f a).run s').result := by
  rw [result_bind, done]
  rfl

/-- Two parts that each end as a computation does end as the two after each other. -/
theorem result_bind_of {y : Except Error (State × α)} {g : State × α → Except Error (State × β)}
    (first : (x.run s).result = y) (rest : ∀ s' a, ((f a).run s').result = g (s', a)) :
    ((x >>= f).run s).result = y >>= g := by
  rw [result_bind, first]
  cases y with
  | error err => rfl
  | ok done => exact rest done.1 done.2

/-- A program that only looks at the state, and what it computes from it. -/
def Computes (x : Program Event State Error α) (f : State → Except Error α) : Prop :=
  ∀ s, (x.run s).result = (f s).map fun a => (s, a)

namespace Computes

variable {g : State → Except Error α} {h : α → State → Except Error β}

theorem result (c : Computes x g) (s : State) : (x.run s).result = (g s).map fun a => (s, a) := c s

theorem look (g : State → α) : Computes (Program.look g : Program Event State Error α) fun s => .ok (g s) :=
    fun _ => rfl

theorem lift (r : Except Error α) : Computes (Program.lift r : Program Event State Error α) fun _ => r := fun _ => rfl

theorem issue (e : Event) : Computes (Program.issue e : Program Event State Error Unit) fun _ => .ok () := fun _ => rfl

theorem result_bind (c : Computes x g) : ((x >>= f).run s).result = (do let a ← g s; ((f a).run s).result) := by
  rw [Program.result_bind, c.result s]
  cases g s <;> rfl

/-- Where it does not fail, the rest runs on the state as it was. -/
theorem result_next {value : State → α} (c : Computes x fun s => .ok (value s)) :
    ((x >>= f).run s).result = ((f (value s)).run s).result := by
  rw [c.result_bind]
  rfl

theorem bind (c : Computes x g) (next : ∀ a, Computes (f a) (h a)) : Computes (x >>= f) (fun s => do h (← g s) s) := by
  intro s
  rw [c.result_bind]
  show _ = Except.map _ (do h (← g s) s)
  cases g s with
  | error err => rfl
  | ok a => exact next a s

end Computes

/-! ### What holds of every event -/

/-- Every event of the program, run on this state, satisfies `p`. -/
def Within (p : Event → Prop) (x : Program Event State Error α) (s : State) : Prop := ∀ e ∈ (x.run s).events, p e

theorem within_pure : Within p (pure a : Program Event State Error α) s := fun _ none => nomatch none

theorem within_look {g : State → α} : Within p (look g : Program Event State Error α) s := fun _ none => nomatch none

theorem within_change {g : State → State} : Within p (change g : Program Event State Error Unit) s :=
  fun _ none => nomatch none

theorem within_lift {r : Except Error α} : Within p (lift r : Program Event State Error α) s :=
    fun _ none => nomatch none

theorem within_stop : Within p (stop err : Program Event State Error α) s := within_lift

theorem within_issue : Within p (issue e : Program Event State Error Unit) s ↔ p e := by
  simp [Within, issue]

theorem within_bind : Within p (x >>= f) s ↔
    Within p x s ∧ ∀ s' a, (x.run s).result = .ok (s', a) → Within p (f a) s' := by
  unfold Within
  rw [run_bind]
  cases (x.run s).result with
  | error err => simp
  | ok done =>
    obtain ⟨s', a⟩ := done
    simp only [List.mem_append, Except.ok.injEq, Prod.mk.injEq, and_imp]
    constructor
    · intro all
      refine ⟨fun e mem => all e (.inl mem), ?_⟩
      rintro _ _ rfl rfl e mem
      exact all e (.inr mem)
    · rintro ⟨first, second⟩ e (mem | mem)
      · exact first e mem
      · exact second s' a rfl rfl e mem

theorem Computes.within_bind {g : State → Except Error α} (c : Computes x g) : Within p (x >>= f) s ↔
    Within p x s ∧ ∀ a, g s = .ok a → Within p (f a) s := by
  rw [Program.within_bind, c.result s]
  apply and_congr_right
  intro _
  cases g s with
  | error err => simp [Except.map]
  | ok a => simp [Except.map]

theorem Computes.within_next {value : State → α} (c : Computes x fun s => .ok (value s)) : Within p (x >>= f) s ↔
    Within p x s ∧ Within p (f (value s)) s := by
  rw [c.within_bind]
  simp

/-! ### What a program leaves -/

/-- Every event satisfies `p`, and the state and the value that the program ends with satisfy `Q`. -/
structure Leaves (p : Event → Prop) (x : Program Event State Error α) (s : State) (Q : State → α → Prop) : Prop where
  within : Within p x s
  post : ∀ s' a, (x.run s).result = .ok (s', a) → Q s' a

namespace Leaves

variable {Q : State → α → Prop} {R : State → β → Prop}

theorem pure (q : Q s a) : Leaves p (pure a : Program Event State Error α) s Q where
  within := within_pure
  post s' b same := by
    obtain ⟨rfl, rfl⟩ := Prod.mk.inj (Except.ok.inj same)
    exact q

theorem stop : Leaves p (stop err : Program Event State Error α) s Q := ⟨within_stop, fun _ _ none => nomatch none⟩

theorem look {g : State → α} : Leaves p (look g : Program Event State Error α) s fun s' a => s' = s ∧ a = g s where
  within := within_look
  post s' b same := by
    obtain ⟨rfl, rfl⟩ := Prod.mk.inj (Except.ok.inj same)
    exact ⟨rfl, rfl⟩

theorem change {g : State → State} : Leaves p (change g : Program Event State Error Unit) s fun s' _ => s' = g s where
  within := within_change
  post _ _ same := (Prod.mk.inj (Except.ok.inj same)).1.symm

theorem issue (holds : p e) : Leaves p (issue e : Program Event State Error Unit) s fun s' _ => s' = s where
  within := within_issue.mpr holds
  post _ _ same := (Prod.mk.inj (Except.ok.inj same)).1.symm

theorem inspect {g : State → Except Error α} : Leaves p (inspect g) s fun s' a => s' = s ∧ g s = .ok a where
  within := fun _ none => nomatch none
  post s' b same := by
    rw [result_inspect] at same
    cases value : g s with
    | error err =>
      rw [value] at same
      cases same
    | ok a =>
      rw [value] at same
      obtain ⟨rfl, rfl⟩ := Prod.mk.inj (Except.ok.inj same)
      exact ⟨rfl, rfl⟩

theorem lift {r : Except Error α} : Leaves p (lift r) s fun s' a => s' = s ∧ r = .ok a := inspect

theorem mono {Q' : State → α → Prop} (h : Leaves p x s Q) (weaker : ∀ s' a, Q s' a → Q' s' a) : Leaves p x s Q' :=
  ⟨h.within, fun s' a done => weaker s' a (h.post s' a done)⟩

/-- The rest of the state is as it was. -/
theorem zoom {Part Error' : Type} {get : State → Part} {set : Part → State → State} {err : Error' → Error}
    {y : Program Event Part Error' α} {P : Part → α → Prop} (h : Leaves p y (get s) P) :
    Leaves p (zoom get set err y) s fun s' a => ∃ t, P t a ∧ s' = set t s where
  within := h.within
  post s' a done := by
    rw [result_zoom] at done
    cases ended : (y.run (get s)).result with
    | error err =>
      rw [ended] at done
      cases done
    | ok r =>
      rw [ended] at done
      obtain ⟨rfl, rfl⟩ := Prod.mk.inj (Except.ok.inj done)
      exact ⟨r.1, h.post _ _ ended, rfl⟩

theorem bind (first : Leaves p x s Q)
    (rest : ∀ s' a, (x.run s).result = .ok (s', a) → Q s' a → Leaves p (f a) s' R) : Leaves p (x >>= f) s R where
  within := within_bind.mpr ⟨first.within, fun s' a done => (rest s' a done (first.post s' a done)).within⟩
  post s'' b done := by
    rw [result_bind] at done
    cases middle : (x.run s).result with
    | error err =>
      rw [middle] at done
      cases done
    | ok reached =>
      rw [middle] at done
      exact (rest _ _ middle (first.post _ _ middle)).post s'' b done

end Leaves

section

variable {R : State → β → Prop}

theorem leaves_look_bind {g : State → α} (rest : Leaves p (f (g s)) s R) : Leaves p (look g >>= f) s R := by
  apply Leaves.look.bind
  intro s' a _ h
  obtain ⟨rfl, rfl⟩ := h
  exact rest

theorem leaves_issue_bind {f : Unit → Program Event State Error β} (holds : p e) (rest : Leaves p (f ()) s R) :
    Leaves p (issue e >>= f) s R := by
  apply (Leaves.issue holds).bind
  intro s' _ _ same
  rw [same]
  exact rest

theorem leaves_change_bind {f : Unit → Program Event State Error β} {g : State → State}
    (rest : Leaves p (f ()) (g s) R) : Leaves p (change g >>= f) s R := by
  apply Leaves.change.bind
  intro s' _ _ same
  rw [same]
  exact rest

theorem leaves_inspect_bind {g : State → Except Error α} (rest : ∀ a, g s = .ok a → Leaves p (f a) s R) :
    Leaves p (inspect g >>= f) s R := by
  apply Leaves.inspect.bind
  intro s' a _ h
  rw [h.1]
  exact rest a h.2

theorem leaves_lift_bind {r : Except Error α} (rest : ∀ a, r = .ok a → Leaves p (f a) s R) :
    Leaves p (lift r >>= f) s R := leaves_inspect_bind rest

end

theorem Computes.leaves_bind {g : State → Except Error α} {R : State → β → Prop} (c : Computes x g)
    (first : Within p x s)
    (rest : ∀ a, g s = .ok a → Leaves p (f a) s R) : Leaves p (x >>= f) s R := by
  refine Leaves.bind ⟨first, fun _ _ _ => trivial⟩ (R := R) fun s' a done _ => ?_
  rw [c.result s] at done
  cases value : g s with
  | error err =>
    rw [value] at done
    cases done
  | ok b =>
    rw [value] at done
    obtain ⟨rfl, rfl⟩ := Prod.mk.inj (Except.ok.inj done)
    exact rest b value

end Program

end OsLabs

/-!
# Contracts

What a computation that may fail promises of its value and of its error, and what is known
of the parts of one that has ended.
-/

namespace OsLabs

variable {ε α β : Type} {P P' : α → Prop} {Q : β → Prop} {R R' : ε → Prop} {x : Except ε α} {f : α → Except ε β} {a : α}
  {e : ε}

/-- What is returned satisfies `P`, and an error `R`. -/
def Ensures (P : α → Prop) (R : ε → Prop) : Except ε α → Prop
  | .ok a => P a
  | .error e => R e

namespace Ensures

theorem value (h : Ensures P R x) (done : x = .ok a) : P a := by
  rw [done] at h
  exact h

theorem failure (h : Ensures P R x) (failed : x = .error e) : R e := by
  rw [failed] at h
  exact h

theorem mono (h : Ensures P R x) (values : ∀ a, P a → P' a) (failures : ∀ e, R e → R' e) : Ensures P' R' x := by
  cases x with
  | ok a => exact values a h
  | error e => exact failures e h

theorem bind (h : Ensures P R x) (next : ∀ a, P a → Ensures Q R (f a)) : Ensures Q R (x >>= f) := by
  cases x with
  | ok a => exact next a h
  | error e => exact h

end Ensures

variable {b : β}

theorem bind_ok (done : x >>= f = .ok b) : ∃ a, x = .ok a ∧ f a = .ok b := by
  cases x with
  | error e => cases done
  | ok a => exact ⟨a, rfl, done⟩

theorem bind_ok_iff : x >>= f = .ok b ↔ ∃ a, x = .ok a ∧ f a = .ok b := by
  refine ⟨bind_ok, ?_⟩
  rintro ⟨a, rfl, done⟩
  exact done

theorem bind_error (failed : x >>= f = .error e) : x = .error e ∨ ∃ a, x = .ok a ∧ f a = .error e := by
  cases x with
  | error e' => exact .inl (by rw [Except.error.inj failed])
  | ok a => exact .inr ⟨a, rfl, failed⟩

theorem ite_ok_iff {cond : Prop} [Decidable cond] {a' : α} :
    (if cond then Except.ok a else Except.error e) = Except.ok a' ↔ cond ∧ a' = a := by
  split <;> simp [*, eq_comm]

theorem ite_bind {cond : Prop} [Decidable cond] {y : Except ε α} :
    (if cond then x >>= f else y >>= f) = (if cond then x else y) >>= f := by
  split <;> rfl

variable {C D : Prop}

/-- It returns if and only if `C`, and what it returns satisfies `P`. -/
def ReturnsWhen (C : Prop) (P : α → Prop) : Except ε α → Prop
  | .ok a => C ∧ P a
  | .error _ => ¬C

namespace ReturnsWhen

theorem intro (value : ∀ a, x = .ok a → C ∧ P a) (returns : C → ∃ a, x = .ok a) : ReturnsWhen C P x := by
  cases x with
  | ok a => exact value a rfl
  | error e =>
    intro holds
    obtain ⟨a, done⟩ := returns holds
    cases done

theorem value (h : ReturnsWhen C P x) (done : x = .ok a) : C ∧ P a := by
  rw [done] at h
  exact h

theorem returns (h : ReturnsWhen C P x) (holds : C) : ∃ a, x = .ok a := by
  cases x with
  | ok a => exact ⟨a, rfl⟩
  | error e => exact absurd holds h

theorem mono (h : ReturnsWhen C P x) (values : C → ∀ a, P a → P' a) : ReturnsWhen C P' x := by
  cases x with
  | ok a => exact ⟨h.1, values h.1 a h.2⟩
  | error e => exact h

theorem congr (h : ReturnsWhen C P x) (same : C ↔ D) : ReturnsWhen D P x := by
  cases x with
  | ok a => exact ⟨same.mp h.1, h.2⟩
  | error e => exact fun holds => h (same.mpr holds)

theorem bind (h : ReturnsWhen C P x) (next : C → ∀ a, P a → ReturnsWhen D Q (f a)) :
    ReturnsWhen (C ∧ D) Q (x >>= f) := by
  cases x with
  | ok a => exact (next h.1 a h.2).congr ⟨fun holds => ⟨h.1, holds⟩, And.right⟩
  | error e => exact fun holds => h holds.1

end ReturnsWhen

end OsLabs

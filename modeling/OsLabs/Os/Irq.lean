import Mathlib.Data.List.Basic
import Mathlib.Data.List.Count
import Mathlib.Data.List.Induction
import OsLabs.Data.Integer

/-!
# Trap handlers

`os_on_irq` puts a callback at the end of the table and exchanges it with the
one before as long as that has no smaller seq. The loop looks at the same two
entries again, so it moves the callback by one place and does not end on a tie.
-/

namespace OsLabs.Os

def maxCb : Nat := 256

def eventNull : Int := 0

def eventError : Int := 1

structure Callback (Handler : Type) where
  handler : Handler
  event : Int
  seq : Int
deriving DecidableEq

variable {Handler : Type}

/-- The `while` loop of `os_on_irq` on `handlers[0..h_handlers)`. -/
def insertLoop : Nat → List (Callback Handler) → Nat → Option (List (Callback Handler))
  | 0, _, _ => none
  | fuel + 1, handlers, i =>
    if i = 0 then some handlers
    else do
      let here ← handlers[i]?
      let tmp ← handlers[i - 1]?
      if here.seq ≤ tmp.seq then insertLoop fuel ((handlers.set (i - 1) here).set i tmp) i
      else some handlers

/-- `os_on_irq`; the table has room for `MAXCB` callbacks. -/
def osOnIrq (fuel : Nat) (handlers : List (Callback Handler)) (callback : Callback Handler) :
    Option (List (Callback Handler)) :=
  if handlers.length < maxCb then insertLoop fuel (handlers ++ [callback]) handlers.length else none

def matching (ev : Int) (callback : Callback Handler) : Bool := callback.event = eventNull ∨ callback.event = ev

/-- The loop of `os_trap`: the callbacks it calls, and the last context that one of them returns.
In a debug build a callback with a larger seq than the next one is a failed assertion. -/
def trapLoop {Context : Type} (debug : Bool) (call : Handler → Option Context) (ev : Int) :
    List (Callback Handler) → Option (List (Callback Handler) × Option Context)
  | [] => some ([], none)
  | callback :: rest =>
    if debug ∧ ∃ next ∈ rest.head?, ¬ callback.seq ≤ next.seq then none
    else do
      let (called, ret) ← trapLoop debug call ev rest
      if matching ev callback then some (callback :: called, ret <|> call callback.handler)
      else some (called, ret)

def osTrap {Context : Type} (debug : Bool) (call : Handler → Option Context)
    (handlers : List (Callback Handler)) (ev : Int)
    (context : Context) : Option (List (Callback Handler) × Option Context) :=
  if ev = eventError then if debug then none else some ([], some context)
  else trapLoop debug call ev handlers

/-- The table after these calls of `os_on_irq`. -/
def register (fuel : Nat) (calls : List (Callback Handler)) : Option (List (Callback Handler)) :=
  calls.foldlM (osOnIrq fuel) []

def Sorted (handlers : List (Callback Handler)) : Prop := handlers.Pairwise fun a b => a.seq ≤ b.seq

/-- The table has what was registered, by seq, and a trap calls the handlers in that order. -/
structure InOrder (calls handlers : List (Callback Handler)) : Prop where
  each : handlers.Perm calls
  sorted : Sorted handlers
  traps : ∀ (Context : Type) debug (call : Handler → Option Context) ev context, ev ≠ eventError →
    ∃ called ret, osTrap debug call handlers ev context = some (called, ret) ∧ called = handlers.filter (matching ev) ∧
      called.Pairwise fun a b => (b.seq = intMin → a.seq ≤ intMin) ∧ (a.seq = intMax → intMax ≤ b.seq)

/-- Every call ends, and the table is as it should be. -/
def Ordered (calls : List (Callback Handler)) : Prop :=
  ∃ fuel handlers, register fuel calls = some handlers ∧ InOrder calls handlers

/-- A new seq that is not the largest so far, and that at most one is larger than. -/
def Placed (before : List (Callback Handler)) (callback : Callback Handler) : Prop :=
  (∀ last ∈ before, (∀ x ∈ before, x.seq ≤ last.seq) → callback.seq ≠ last.seq) ∧
    before.countP (fun x => callback.seq < x.seq) ≤ 1

/-! ### One call -/

variable {fuel : Nat} {init calls handlers result : List (Callback Handler)} {last callback : Callback Handler}

theorem insertLoop_round : insertLoop (fuel + 1) (init ++ [last, callback]) (init.length + 1) =
    if callback.seq ≤ last.seq then insertLoop fuel (init ++ [callback, last]) (init.length + 1)
    else some (init ++ [last, callback]) := by
  have here : (init ++ [last, callback])[init.length + 1]? = some callback := by
    rw [List.getElem?_append_right (by omega), Nat.add_sub_cancel_left]
    rfl
  have before : (init ++ [last, callback])[init.length]? = some last := by
    rw [List.getElem?_append_right (by omega), Nat.sub_self]
    rfl
  have exchanged : ((init ++ [last, callback]).set init.length callback).set (init.length + 1) last =
      init ++ [callback, last] := by
    rw [List.set_append_right _ _ (by omega), Nat.sub_self, List.set_append_right _ _ (by omega),
      Nat.add_sub_cancel_left]
    rfl
  rw [insertLoop, if_neg (Nat.succ_ne_zero _), Nat.add_sub_cancel, here, before]
  simp only [Option.bind_eq_bind, Option.bind_some, exchanged]

/-- On a tie the loop exchanges the two entries for ever. -/
theorem insertLoop_tie (tie : callback.seq = last.seq) :
    insertLoop fuel (init ++ [last, callback]) (init.length + 1) = none := by
  induction fuel generalizing last callback with
  | zero => rfl
  | succ fuel ih =>
    rw [insertLoop_round, if_pos (le_of_eq tie)]
    exact ih tie.symm

theorem insertLoop_smaller (less : callback.seq < last.seq) :
    insertLoop (fuel + 2) (init ++ [last, callback]) (init.length + 1) = some (init ++ [callback, last]) := by
  rw [insertLoop_round, if_pos (le_of_lt less), insertLoop_round, if_neg (not_le_of_gt less)]

theorem insertLoop_larger (more : last.seq < callback.seq) :
    insertLoop (fuel + 1) (init ++ [last, callback]) (init.length + 1) = some (init ++ [last, callback]) := by
  rw [insertLoop_round, if_neg (not_le_of_gt more)]

theorem osOnIrq_nil : osOnIrq (fuel + 1) [] callback = some [callback] := rfl

theorem osOnIrq_append (room : init.length + 1 < maxCb) :
    osOnIrq fuel (init ++ [last]) callback = insertLoop fuel (init ++ [last, callback]) (init.length + 1) := by
  rw [osOnIrq, List.length_append, List.length_singleton, if_pos room, List.append_assoc]
  rfl

/-- What a call that ends does: the new callback stands last, or just before the last one. -/
theorem osOnIrq_cases (done : osOnIrq fuel handlers callback = some result) :
    (handlers = [] ∧ result = [callback]) ∨ ∃ init last, handlers = init ++ [last] ∧
      (callback.seq < last.seq ∧ result = init ++ [callback, last] ∨
        last.seq < callback.seq ∧ result = init ++ [last, callback]) := by
  rcases List.eq_nil_or_concat handlers with rfl | ⟨init, last, rfl⟩
  · cases fuel with
    | zero => cases done
    | succ fuel => exact .inl ⟨rfl, (Option.some.inj done).symm⟩
  · refine .inr ⟨init, last, List.concat_eq_append, ?_⟩
    rw [List.concat_eq_append] at done
    have room : init.length + 1 < maxCb := by
      by_contra full
      rw [osOnIrq, List.length_append, List.length_singleton, if_neg full] at done
      cases done
    rw [osOnIrq_append room] at done
    rcases lt_trichotomy callback.seq last.seq with less | tie | more
    · rcases fuel with _ | _ | fuel
      · cases done
      · rw [insertLoop_round, if_pos (le_of_lt less)] at done
        cases done
      · rw [insertLoop_smaller less] at done
        exact .inl ⟨less, (Option.some.inj done).symm⟩
    · rw [insertLoop_tie tie] at done
      cases done
    · cases fuel with
      | zero => cases done
      | succ fuel =>
        rw [insertLoop_larger more] at done
        exact .inr ⟨more, (Option.some.inj done).symm⟩

/-! ### Order -/

/-- The last callback of the table has the largest seq, and no other one has it. -/
def Topped (handlers : List (Callback Handler)) : Prop :=
  ∀ init last, handlers = init ++ [last] → ∀ x ∈ init, x.seq < last.seq

theorem topped_append : Topped (init ++ [last]) ↔ ∀ x ∈ init, x.seq < last.seq := by
  constructor
  · intro topped
    exact topped init last rfl
  · intro below init' last' same
    obtain ⟨rfl, tail⟩ := List.append_inj' same rfl
    obtain rfl := List.singleton_inj.mp tail
    exact below

theorem topped_step (topped : Topped handlers) (done : osOnIrq fuel handlers callback = some result) :
    Topped result := by
  rcases osOnIrq_cases done with ⟨-, rfl⟩ | ⟨init, last, rfl, ⟨less, rfl⟩ | ⟨more, rfl⟩⟩
  · exact topped_append.mpr (fun x hx => absurd hx List.not_mem_nil)
  · have below := topped_append.mp topped
    rw [List.append_cons, topped_append]
    intro x hx
    rcases List.mem_append.mp hx with old | new
    · exact below x old
    · rwa [List.mem_singleton.mp new]
  · have below := topped_append.mp topped
    rw [List.append_cons, topped_append]
    intro x hx
    rcases List.mem_append.mp hx with old | new
    · exact (below x old).trans more
    · rwa [List.mem_singleton.mp new]

theorem perm_step (done : osOnIrq fuel handlers callback = some result) : result.Perm (handlers ++ [callback]) := by
  rcases osOnIrq_cases done with ⟨rfl, rfl⟩ | ⟨init, last, rfl, ⟨-, rfl⟩ | ⟨-, rfl⟩⟩
  · exact List.Perm.refl _
  · rw [List.append_assoc]
    exact (List.Perm.swap last callback []).append_left init
  · rw [List.append_assoc]
    exact List.Perm.refl _

theorem sorted_append : Sorted (handlers ++ [callback]) ↔ Sorted handlers ∧ ∀ x ∈ handlers, x.seq ≤ callback.seq := by
  simp [Sorted, List.pairwise_append]

/-- Where the last callback is the largest, one that was placed stands in order with the others. -/
theorem sorted_step (topped : Topped handlers) (perm : handlers.Perm calls)
    (done : osOnIrq fuel handlers callback = some result) :
    Sorted result ↔ Sorted handlers ∧ Placed calls callback := by
  unfold Placed
  rw [← perm.countP_eq]
  simp only [← perm.mem_iff]
  rcases osOnIrq_cases done with ⟨rfl, rfl⟩ | ⟨init, last, rfl, ⟨less, rfl⟩ | ⟨more, rfl⟩⟩
  · simp [Sorted]
  · have below := topped_append.mp topped
    have apart : ∀ m ∈ init ++ [last], (∀ x ∈ init ++ [last], x.seq ≤ m.seq) → callback.seq ≠ m.seq := by
      intro m _ largest
      exact ne_of_lt (lt_of_lt_of_le less (largest last (List.mem_append_right init (List.mem_singleton_self last))))
    have larger : (init ++ [last]).countP (fun x => callback.seq < x.seq) ≤ 1 ↔ ∀ x ∈ init, x.seq ≤ callback.seq := by
      simp [List.countP_append, less, List.countP_eq_zero]
    rw [List.append_cons, sorted_append, sorted_append, sorted_append, larger]
    constructor
    · rintro ⟨⟨sorted, early⟩, -⟩
      exact ⟨⟨sorted, fun x hx => le_of_lt (below x hx)⟩, apart, early⟩
    · rintro ⟨⟨sorted, -⟩, -, early⟩
      refine ⟨⟨sorted, early⟩, fun x hx => ?_⟩
      rcases List.mem_append.mp hx with old | new
      · exact le_of_lt (below x old)
      · rw [List.mem_singleton.mp new]
        exact le_of_lt less
  · have below := topped_append.mp topped
    have under : ∀ x ∈ init ++ [last], x.seq < callback.seq := by
      intro x hx
      rcases List.mem_append.mp hx with old | new
      · exact (below x old).trans more
      · rwa [List.mem_singleton.mp new]
    have placed : (∀ m ∈ init ++ [last], (∀ x ∈ init ++ [last], x.seq ≤ m.seq) → callback.seq ≠ m.seq) ∧
        (init ++ [last]).countP (fun x => callback.seq < x.seq) ≤ 1 := by
      constructor
      · intro m hm _
        exact ne_of_gt (under m hm)
      · have none : (init ++ [last]).countP (fun x => callback.seq < x.seq) = 0 :=
          List.countP_eq_zero.mpr fun x hx => by simpa using le_of_lt (under x hx)
        omega
    rw [List.append_cons, sorted_append]
    exact ⟨fun h => ⟨h.1, placed⟩, fun h => ⟨h.1, fun x hx => le_of_lt (under x hx)⟩⟩

theorem osOnIrq_done (topped : Topped handlers) (perm : handlers.Perm calls) (room : handlers.length < maxCb)
    (placed : Placed calls callback) : ∃ result, osOnIrq 2 handlers callback = some result := by
  rcases List.eq_nil_or_concat handlers with rfl | ⟨init, last, rfl⟩
  · exact ⟨_, osOnIrq_nil⟩
  · rw [List.concat_eq_append] at *
    have below := topped_append.mp topped
    have apart : callback.seq ≠ last.seq := by
      apply placed.1 last (perm.mem_iff.mp (List.mem_append_right init (List.mem_singleton_self last)))
      intro x hx
      rcases List.mem_append.mp (perm.mem_iff.mpr hx) with old | new
      · exact le_of_lt (below x old)
      · rw [List.mem_singleton.mp new]
    rw [osOnIrq_append (by simpa using room)]
    rcases lt_or_gt_of_ne apart with less | more
    · exact ⟨_, insertLoop_smaller less⟩
    · exact ⟨_, insertLoop_larger more⟩

/-! ### Traps -/

theorem trapLoop_sorted {Context : Type} (debug : Bool) (call : Handler → Option Context) (ev : Int)
    (sorted : Sorted handlers) :
    ∃ ret, trapLoop debug call ev handlers = some (handlers.filter (matching ev), ret) := by
  induction handlers with
  | nil => exact ⟨none, rfl⟩
  | cons callback rest ih =>
    obtain ⟨before, sorted⟩ := List.pairwise_cons.mp sorted
    obtain ⟨ret, done⟩ := ih sorted
    have passes : ¬ (debug = true ∧ ∃ next ∈ rest.head?, ¬ callback.seq ≤ next.seq) := by
      rintro ⟨-, next, first, out⟩
      exact out (before next (List.mem_of_mem_head? first))
    rw [trapLoop, if_neg passes, done]
    simp only [Option.bind_eq_bind, Option.bind_some]
    split
    · rename_i called
      exact ⟨_, by rw [List.filter_cons_of_pos called]⟩
    · rename_i skipped
      exact ⟨_, by rw [List.filter_cons_of_neg skipped]⟩

theorem inOrder_of_sorted (perm : handlers.Perm calls) (sorted : Sorted handlers) : InOrder calls handlers where
  each := perm
  sorted := sorted
  traps := by
    intro Context debug call ev context regular
    obtain ⟨ret, done⟩ := trapLoop_sorted debug call ev sorted
    refine ⟨_, ret, (if_neg regular).trans done, rfl, ?_⟩
    apply (List.Pairwise.filter _ sorted).imp
    intro a b before
    exact ⟨fun low => low ▸ before, fun high => high ▸ before⟩

/-! ### Every run of calls -/

theorem register_append :
    register fuel (calls ++ [callback]) = (register fuel calls).bind (osOnIrq fuel · callback) := by
  rw [register, List.foldlM_append]
  simp [register]

theorem register_keeps (done : register fuel calls = some handlers) : handlers.Perm calls ∧ Topped handlers := by
  induction calls using List.reverseRecOn generalizing handlers with
  | nil =>
    obtain rfl := Option.some.inj done
    exact ⟨List.Perm.refl _, fun init last same => absurd same (by simp)⟩
  | append_singleton calls callback ih =>
    rw [register_append] at done
    obtain ⟨before, earlier, done⟩ := Option.bind_eq_some_iff.mp done
    obtain ⟨perm, topped⟩ := ih earlier
    exact ⟨(perm_step done).trans (perm.append_right _), topped_step topped done⟩

/-- Every registration had its place. -/
def AllPlaced (calls : List (Callback Handler)) : Prop :=
  ∀ before callback after, calls = before ++ callback :: after → Placed before callback

theorem allPlaced_append : AllPlaced (calls ++ [callback]) ↔ AllPlaced calls ∧ Placed calls callback := by
  constructor
  · intro all
    refine ⟨?_, all calls callback [] rfl⟩
    rintro before c after rfl
    exact all before c (after ++ [callback]) (by simp)
  · rintro ⟨all, placed⟩ before c after same
    rcases List.eq_nil_or_concat after with rfl | ⟨init, last, rfl⟩
    · obtain ⟨rfl, tail⟩ := List.append_inj' same rfl
      obtain rfl := List.singleton_inj.mp tail
      exact placed
    · rw [List.concat_eq_append, ← List.cons_append, ← List.append_assoc] at same
      exact all before c init (List.append_inj' same rfl).1

theorem register_sorted (fits : calls.length ≤ maxCb) (all : AllPlaced calls) :
    ∃ handlers, register 2 calls = some handlers ∧ Sorted handlers := by
  induction calls using List.reverseRecOn with
  | nil => exact ⟨[], rfl, List.Pairwise.nil⟩
  | append_singleton calls callback ih =>
    rw [List.length_append, List.length_singleton] at fits
    obtain ⟨all, placed⟩ := allPlaced_append.mp all
    obtain ⟨handlers, earlier, sorted⟩ := ih (by omega) all
    obtain ⟨perm, topped⟩ := register_keeps earlier
    obtain ⟨result, done⟩ := osOnIrq_done topped perm (by rw [perm.length_eq]; omega) placed
    refine ⟨result, ?_, (sorted_step topped perm done).mpr ⟨sorted, placed⟩⟩
    rw [register_append, earlier]
    exact done

theorem allPlaced_of_sorted (done : register fuel calls = some handlers) (sorted : Sorted handlers) :
    AllPlaced calls := by
  induction calls using List.reverseRecOn generalizing handlers with
  | nil =>
    intro before callback after same
    simp at same
  | append_singleton calls callback ih =>
    rw [register_append] at done
    obtain ⟨earlier, before, done⟩ := Option.bind_eq_some_iff.mp done
    obtain ⟨perm, topped⟩ := register_keeps before
    obtain ⟨sorted, placed⟩ := (sorted_step topped perm done).mp sorted
    exact allPlaced_append.mpr ⟨ih before sorted, placed⟩

/-- The table is in order exactly when each new seq differed from the largest one before it and at most one
was larger. -/
theorem ordered_iff (calls : List (Callback Handler)) (fits : calls.length ≤ maxCb) :
    Ordered calls ↔ AllPlaced calls := by
  constructor
  · rintro ⟨fuel, handlers, done, inOrder⟩
    exact allPlaced_of_sorted done inOrder.sorted
  · intro all
    obtain ⟨handlers, done, sorted⟩ := register_sorted fits all
    exact ⟨2, handlers, done, inOrder_of_sorted (register_keeps done).1 sorted⟩

/-- The three callbacks of the kernel, in the order in which it registers them. -/
theorem ordered_iff_sample :
    let calls : List (Callback Nat) := [⟨0, eventNull, intMin⟩, ⟨1, eventNull, intMax⟩, ⟨2, 3, 0⟩]
    calls.length ≤ maxCb ∧ (Ordered calls ↔ AllPlaced calls) :=
  ⟨by decide, ordered_iff _ (by decide)⟩

/-- Two callbacks with one seq: the second call does not end. -/
theorem ordered_counterexample :
    ¬ ∀ calls : List (Callback Nat), calls.length ≤ maxCb → Ordered calls := by
  intro all
  obtain ⟨fuel, handlers, done, inOrder⟩ := all [⟨0, 3, 5⟩, ⟨1, 3, 5⟩] (by decide)
  have placed : Placed [⟨0, 3, 5⟩] ⟨1, 3, 5⟩ := allPlaced_of_sorted done inOrder.sorted [⟨0, 3, 5⟩] ⟨1, 3, 5⟩ [] rfl
  exact placed.1 ⟨0, 3, 5⟩ (List.mem_singleton_self _) (fun x hx => by rw [List.mem_singleton.mp hx]) rfl

end OsLabs.Os

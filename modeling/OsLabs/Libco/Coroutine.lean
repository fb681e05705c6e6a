import Mathlib.Logic.Function.Basic
import OsLabs.Data.Machine

/-!
# Coroutines

`co_start`, `co_yield` and `co_wait` with a `jmp_buf` as a point of the code and a
stack pointer. What the coroutines do between their calls is arbitrary. `none` is
a jump through an environment, or a switch to a stack, that was never saved.
-/

namespace OsLabs.Libco
open Function

def maxCo : Nat := 10

/-- A stack pointer: whose stack it points into, and which call of the library pushed the frame. -/
structure Sp where
  owner : Nat
  mark : Nat
  deriving DecidableEq

/-- Where `co_yield` was called from: the coroutine's own code, `co_wait`, or the end of `co_start`'s branch. -/
inductive Caller where
  | user
  | wait (thd : Nat)
  | finish
  deriving DecidableEq

/-- The `setjmp` of `co_start`, that of `co_yield` and that of `co_wait`. -/
inductive Site where
  | start
  | yield (caller : Caller)
  | wait (thd : Nat)
  deriving DecidableEq

structure JmpBuf where
  site : Site
  sp : Sp
  deriving DecidableEq

/-- `struct co`; the name is not used. -/
structure Co where
  env : Option JmpBuf
  done : Bool
  stackptr : Option Sp

/-- Where control is: in the code of the coroutine, in the loop of `co_wait`, or past the call of `co_yield` that ends
`co_start`'s branch. -/
inductive Control where
  | user
  | waiting (thd : Nat)
  | returned
  deriving DecidableEq

/-- The globals of `co.c`, the stack pointer, the number of library calls so far, and where control is. -/
structure State where
  crs : Nat → Co
  coNum : Nat
  cur : Nat
  sp : Sp
  calls : Nat
  control : Control

namespace State

def setCo (s : State) (c : Nat) (f : Co → Co) : State := { s with crs := update s.crs c (f (s.crs c)) }

/-- The frame of a library call. -/
def enter (s : State) : State := { s with sp := ⟨s.sp.owner, s.calls⟩, calls := s.calls + 1 }

/-- `setjmp(crs[c].env)` as it returns 0. -/
def setjmp (s : State) (c : Nat) (site : Site) : State := s.setCo c ({ · with env := some ⟨site, s.sp⟩ })

def changeframe (s : State) (old new : Nat) : Option State := do
  let s := s.setCo old ({ · with stackptr := some s.sp })
  let sp ← (s.crs new).stackptr
  some { s with sp := sp }

def restoreframe (s : State) (num : Nat) : Option State := do
  let sp ← (s.crs num).stackptr
  some { s with sp := sp }

/-- What follows a `setjmp` that returns 1. -/
def resume (s : State) : Site → Option State
  | .start => do
    let s ← s.restoreframe s.cur
    some { s with control := .user }
  | .yield caller => do
    let s ← s.restoreframe s.cur
    some { s with control := match caller with
      | .user => .user
      | .wait thd => .waiting thd
      | .finish => .returned }
  | .wait thd => some { s with control := .waiting thd }

def longjmp (s : State) (c : Nat) : Option State := do
  let env ← (s.crs c).env
  { s with sp := env.sp }.resume env.site

end State

/-- `co_init`, on globals that are zero. -/
def coInit : State where
  crs _ := ⟨none, false, none⟩
  coNum := 0
  cur := 0
  sp := ⟨0, 0⟩
  calls := 1
  control := .user

/-- `co_start` up to the first instruction of `func_`. -/
def coStart (s : State) : Option State := do
  let s := s.enter
  let n := s.coNum + 1
  let s := { s with coNum := n }.setCo n ({ · with done := false, stackptr := some ⟨n, 0⟩ })
  let s := s.setjmp s.cur .start
  let s ← s.changeframe s.cur n
  some { s with cur := n, control := .user }

/-- The loop of `co_yield` on the values that `rand` gives; `none` is a loop that has not ended yet. -/
def pickCur (s : State) : List Nat → Option Nat
  | [] => none
  | rand :: rands => if (s.crs (rand % (s.coNum + 1))).done then pickCur s rands else some (rand % (s.coNum + 1))

/-- `co_yield` once `cur` was chosen. -/
def coYield (s : State) (caller : Caller) (chosen : Nat) : Option State := do
  let s := s.enter
  let pre := s.cur
  let s := { s with cur := chosen }
  let s := s.setjmp pre (.yield caller)
  let s ← s.changeframe pre chosen
  s.longjmp chosen

/-- What the callers of `co_yield` do right before it: `co_wait` overwrites the environment, the end of `co_start`'s
branch sets `done`. -/
def beforeYield (s : State) : Caller → State
  | .user => s
  | .wait thd => s.enter.setjmp s.cur (.wait thd)
  | .finish => s.setCo s.cur ({ · with done := true })

/-! ### Runs -/

inductive Label where
  | start
  | yield (chosen : Nat)
  | finish (chosen : Nat)
  | wait (thd : Nat)
  | again (thd chosen : Nat)
  | leave (thd : Nat)

/-- The state, for each coroutine the point at which it last gave up control, and the coroutines whose functions have
returned. -/
structure Run where
  state : State
  last : Nat → Option JmpBuf
  ended : List Nat

/-- The running coroutine gives up control at `site`, in the frame that its call pushes. -/
def Run.suspend (r : Run) (frame : State) (site : Site) : Nat → Option JmpBuf :=
  update r.last r.state.cur (some ⟨site, frame.enter.sp⟩)

inductive Step : Run → Label → Run → Prop
  | start {r : Run} {s : State} (here : r.state.control = .user) (room : r.state.coNum + 1 < maxCo)
      (done : coStart r.state = some s) :
      Step r .start ⟨s, r.suspend r.state .start, r.ended⟩
  | yield {r : Run} {s : State} {rands : List Nat} {chosen : Nat} (here : r.state.control = .user)
      (picked : pickCur r.state rands = some chosen) (done : coYield r.state .user chosen = some s) :
      Step r (.yield chosen) ⟨s, r.suspend r.state (.yield .user), r.ended⟩
  | finish {r : Run} {s : State} {rands : List Nat} {chosen : Nat} (here : r.state.control = .user)
      (started : r.state.cur ≠ 0) (picked : pickCur (beforeYield r.state .finish) rands = some chosen)
      (done : coYield (beforeYield r.state .finish) .finish chosen = some s) :
      Step r (.finish chosen) ⟨s, r.suspend (beforeYield r.state .finish) (.yield .finish), r.state.cur :: r.ended⟩
  | wait {r : Run} {thd : Nat} (here : r.state.control = .user) :
      Step r (.wait thd) { r with state := { r.state with control := .waiting thd } }
  | again {r : Run} {s : State} {thd chosen : Nat} {rands : List Nat} (here : r.state.control = .waiting thd)
      (going : (r.state.crs thd).done = false) (picked : pickCur (beforeYield r.state (.wait thd)) rands = some chosen)
      (done : coYield (beforeYield r.state (.wait thd)) (.wait thd) chosen = some s) :
      Step r (.again thd chosen) ⟨s, r.suspend (beforeYield r.state (.wait thd)) (.yield (.wait thd)), r.ended⟩
  | leave {r : Run} {thd : Nat} (here : r.state.control = .waiting thd) (ended : (r.state.crs thd).done = true) :
      Step r (.leave thd) { r with state := { r.state with control := .user } }

def coroutines : Machine Run Label where
  Init r := r = ⟨coInit, fun _ => none, []⟩
  Step := Step

variable {r t : Run} {s : State} {c chosen : Nat} {caller : Caller} {site : Site} {sp : Sp} {buf : JmpBuf}

/-- The environment and the stack pointer are those of the point at which the coroutine last gave up control. -/
def Saved (r : Run) (c : Nat) : Prop :=
  ∃ buf, r.last c = some buf ∧ (r.state.crs c).env = some buf ∧ (r.state.crs c).stackptr = some buf.sp

/-! ### What one call does -/

theorem pickCur_some {rands : List Nat} (picked : pickCur s rands = some chosen) :
    chosen ≤ s.coNum ∧ (s.crs chosen).done = false := by
  induction rands with
  | nil => cases picked
  | cons rand rands ih =>
    rw [pickCur] at picked
    split at picked
    · exact ih picked
    · rename_i live
      obtain rfl := Option.some.inj picked
      exact ⟨Nat.le_of_lt_succ (Nat.mod_lt _ (Nat.succ_pos _)), by simpa using live⟩

def Site.control : Site → Control
  | .start | .yield .user => .user
  | .yield (.wait thd) | .wait thd => .waiting thd
  | .yield .finish => .returned

theorem resume_eq (stackptr : (s.crs s.cur).stackptr = some s.sp) :
    s.resume site = some { s with control := site.control } := by
  cases site with
  | start => simp [State.resume, State.restoreframe, stackptr, Site.control]
  | yield caller => cases caller <;> simp [State.resume, State.restoreframe, stackptr, Site.control]
  | wait thd => rfl

def Co.at (co : Co) (buf : JmpBuf) : Co := { co with env := some buf, stackptr := some buf.sp }

theorem coYield_self (s : State) (caller : Caller) : coYield s caller s.cur = some { s with
    crs := update s.crs s.cur ((s.crs s.cur).at ⟨.yield caller, s.enter.sp⟩)
    sp := s.enter.sp, calls := s.calls + 1, control := (Site.yield caller).control } := by
  simp [coYield, State.enter, State.setjmp, State.changeframe, State.setCo, State.longjmp, resume_eq, Co.at]

theorem coYield_other (caller : Caller) (other : chosen ≠ s.cur) (env : (s.crs chosen).env = some buf)
    (stackptr : (s.crs chosen).stackptr = some buf.sp) : coYield s caller chosen = some { s with
      crs := update s.crs s.cur ((s.crs s.cur).at ⟨.yield caller, s.enter.sp⟩)
      cur := chosen, sp := buf.sp, calls := s.calls + 1, control := buf.site.control } := by
  simp [coYield, State.enter, State.setjmp, State.changeframe, State.setCo, State.longjmp, other, env, stackptr,
    resume_eq, Co.at]

theorem coStart_eq (inside : s.cur ≤ s.coNum) : coStart s = some { s with
    crs := update (update s.crs (s.coNum + 1) ⟨(s.crs (s.coNum + 1)).env, false, some ⟨s.coNum + 1, 0⟩⟩)
      s.cur ((s.crs s.cur).at ⟨.start, s.enter.sp⟩)
    coNum := s.coNum + 1, cur := s.coNum + 1, sp := ⟨s.coNum + 1, 0⟩, calls := s.calls + 1, control := .user } := by
  have other : s.cur ≠ s.coNum + 1 := by omega
  simp [coStart, State.enter, State.setjmp, State.changeframe, State.setCo, other, other.symm, Co.at]

/-! ### The invariant -/

/-- A coroutine that can be resumed: saved on its own stack, and not past its end. -/
def Suspended (r : Run) (c : Nat) : Prop :=
  ∃ buf, r.last c = some buf ∧ (r.state.crs c).env = some buf ∧ (r.state.crs c).stackptr = some buf.sp ∧
    buf.sp.owner = c ∧ buf.site.control ≠ .returned

structure Inv (r : Run) : Prop where
  started : r.state.cur ≤ r.state.coNum
  room : r.state.coNum < maxCo
  running : (r.state.crs r.state.cur).done = false
  main : (r.state.crs 0).done = false
  stack : r.state.sp.owner = r.state.cur
  here : r.state.control ≠ .returned
  suspended : ∀ c ≤ r.state.coNum, c ≠ r.state.cur → (r.state.crs c).done = false → Suspended r c
  ended : ∀ c, c ∈ r.ended ↔ c ≤ r.state.coNum ∧ (r.state.crs c).done = true

theorem Suspended.saved (h : Suspended r c) : Saved r c := by
  obtain ⟨buf, last, env, stackptr, -, -⟩ := h
  exact ⟨buf, last, env, stackptr⟩

@[simp] theorem beforeYield_cur : (beforeYield s caller).cur = s.cur := by cases caller <;> rfl

@[simp] theorem beforeYield_coNum : (beforeYield s caller).coNum = s.coNum := by cases caller <;> rfl

@[simp] theorem beforeYield_owner : (beforeYield s caller).sp.owner = s.sp.owner := by cases caller <;> rfl

theorem beforeYield_other (caller : Caller) (other : c ≠ s.cur) : (beforeYield s caller).crs c = s.crs c := by
  cases caller <;> simp [beforeYield, State.enter, State.setjmp, State.setCo, other]

theorem beforeYield_done (s : State) (caller : Caller) :
    ((beforeYield s caller).crs s.cur).done = (decide (caller = .finish) || (s.crs s.cur).done) := by
  cases caller <;> simp [beforeYield, State.enter, State.setjmp, State.setCo]

/-- What the run shows of the functions that have returned after a call of `co_yield`. -/
def Run.endedAfter (r : Run) : Caller → List Nat
  | .finish => r.state.cur :: r.ended
  | _ => r.ended

namespace Inv

/-- The running coroutine gave up control at `buf`, and one that is not past its end has it now. -/
theorem move (inv : Inv r) {t : State} {ended : List Nat} (gone : Bool) (buf : JmpBuf)
    (kept : ∀ c ≤ r.state.coNum, c ≠ r.state.cur → t.crs c = r.state.crs c)
    (left : ∃ co : Co, co.done = gone ∧ t.crs r.state.cur = co.at buf)
    (mine : buf.sp.owner = r.state.cur) (site : gone = false → buf.site.control ≠ .returned)
    (main : gone = true → r.state.cur ≠ 0) (listed : ended = if gone then r.state.cur :: r.ended else r.ended)
    (started : t.cur ≤ t.coNum) (room : t.coNum < maxCo) (grown : r.state.coNum ≤ t.coNum)
    (new : ∀ c ≤ t.coNum, r.state.coNum < c → c = t.cur) (running : (t.crs t.cur).done = false)
    (stack : t.sp.owner = t.cur) (here : t.control ≠ .returned) :
    Inv ⟨t, update r.last r.state.cur (some buf), ended⟩ := by
  obtain ⟨co, rfl, left⟩ := left
  refine ⟨started, room, running, ?_, stack, here, fun c within other live => ?_, fun c => ?_⟩
  · by_cases zero : r.state.cur = 0
    · rw [zero] at left main
      simp only [left, Co.at]
      by_contra gone
      exact main (by simpa using gone) rfl
    · rw [kept 0 (Nat.zero_le _) (Ne.symm zero)]
      exact inv.main
  · by_cases same : c = r.state.cur
    · subst same
      simp only [left, Co.at] at live
      exact ⟨buf, update_self .., by simp only [left, Co.at], by simp only [left, Co.at], mine, site live⟩
    · have old : c ≤ r.state.coNum := by
        by_contra beyond
        exact other (new c within (Nat.lt_of_not_le beyond))
      have same' := kept c old same
      simp only [same'] at live
      obtain ⟨buf', last, env, stackptr, mine', site'⟩ := inv.suspended c old same live
      exact ⟨buf', (update_of_ne same ..).trans last, by simp only [same', env], by simp only [same', stackptr], mine',
        site'⟩
  · by_cases same : c = r.state.cur
    · subst same
      have absent : r.state.cur ∉ r.ended := fun mem => by simpa [inv.running] using ((inv.ended _).mp mem).2
      have within : r.state.cur ≤ t.coNum := Nat.le_trans inv.started grown
      rw [left, listed]
      cases gone : co.done <;> simp [Co.at, gone, absent, within]
    · have mem : c ∈ ended ↔ c ∈ r.ended := by
        rw [listed]
        split <;> simp [same]
      rw [mem, inv.ended]
      by_cases old : c ≤ r.state.coNum
      · rw [kept c old same]
        exact and_congr_left fun _ => iff_of_true old (Nat.le_trans old grown)
      · apply iff_of_false (fun h => old h.1)
        intro h
        have := new c h.1 (Nat.lt_of_not_le old)
        rw [this, running] at h
        exact Bool.noConfusion h.2

/-- One call of `co_yield`, whoever makes it: the switch succeeds and lands in the coroutine it chose. -/
theorem switch (inv : Inv r) {rands : List Nat} (caller : Caller) (code : caller = .finish → r.state.cur ≠ 0)
    (picked : pickCur (beforeYield r.state caller) rands = some chosen) :
    ∃ s, coYield (beforeYield r.state caller) caller chosen = some s ∧ s.cur = chosen ∧
      Inv ⟨s, r.suspend (beforeYield r.state caller) (.yield caller), r.endedAfter caller⟩ := by
  obtain ⟨within, live⟩ := pickCur_some picked
  rw [beforeYield_coNum] at within
  have running := beforeYield_done r.state caller
  rw [inv.running, Bool.or_false] at running
  have mine : (beforeYield r.state caller).enter.sp.owner = r.state.cur := beforeYield_owner.trans inv.stack
  have site : decide (caller = .finish) = false → (Site.yield caller).control ≠ .returned := by
    intro going
    cases caller with
    | user => simp [Site.control]
    | wait thd => simp [Site.control]
    | finish => simp at going
  have listed : r.endedAfter caller = if decide (caller = .finish) then r.state.cur :: r.ended else r.ended := by
    cases caller <;> rfl
  have lands : ∀ (sp : Sp) (control : Control), sp.owner = chosen → control ≠ .returned → Inv ⟨
      { beforeYield r.state caller with
        crs := update (beforeYield r.state caller).crs r.state.cur
          (((beforeYield r.state caller).crs r.state.cur).at ⟨.yield caller, (beforeYield r.state caller).enter.sp⟩)
        cur := chosen, sp := sp, calls := (beforeYield r.state caller).calls + 1, control := control },
      r.suspend (beforeYield r.state caller) (.yield caller), r.endedAfter caller⟩ := by
    intro sp control owner here
    refine inv.move (decide (caller = .finish)) ⟨.yield caller, (beforeYield r.state caller).enter.sp⟩
      ?_ ⟨_, running, update_self ..⟩ mine site (by simpa using code) listed ?_ ?_ ?_ ?_ ?_ owner here
    · intro c _ other
      exact (update_of_ne other ..).trans (beforeYield_other caller other)
    · simpa using within
    · simpa using inv.room
    · simp
    · intro c within' beyond
      simp only [beforeYield_coNum] at within'
      omega
    · by_cases same : chosen = r.state.cur
      · subst same
        simpa [Co.at] using live
      · simpa [same] using live
  by_cases self : chosen = r.state.cur
  · subst self
    have landed := coYield_self (beforeYield r.state caller) caller
    rw [beforeYield_cur] at landed
    exact ⟨_, landed, rfl, lands _ _ mine (site (running.symm.trans live))⟩
  · have live' : (r.state.crs chosen).done = false := by rwa [beforeYield_other _ self] at live
    obtain ⟨buf, -, env, stackptr, owner, here⟩ := inv.suspended chosen within self live'
    rw [← beforeYield_other caller self] at env stackptr
    have landed := coYield_other caller (by rwa [beforeYield_cur]) env stackptr
    rw [beforeYield_cur] at landed
    exact ⟨_, landed, rfl, lands _ _ owner here⟩

theorem start (inv : Inv r) (room : r.state.coNum + 1 < maxCo) :
    ∃ s, coStart r.state = some s ∧ Inv ⟨s, r.suspend r.state .start, r.ended⟩ := by
  have new : r.state.coNum + 1 ≠ r.state.cur := by have := inv.started; omega
  refine ⟨_, coStart_eq inv.started, inv.move false ⟨.start, r.state.enter.sp⟩ ?_ ⟨_, inv.running, update_self ..⟩
    inv.stack (by simp [Site.control]) (by simp) rfl (Nat.le_refl _) room (Nat.le_succ _) ?_ ?_ rfl (by simp)⟩
  · intro c within other
    have fresh : c ≠ r.state.coNum + 1 := by omega
    exact (update_of_ne other ..).trans (update_of_ne fresh ..)
  · intro c within beyond
    simp only at within ⊢
    omega
  · simp [new]

end Inv

theorem inv_step {l : Label} (inv : Inv r) (step : Step r l t) : Inv t := by
  cases step with
  | start here room done =>
    obtain ⟨s, started, kept⟩ := inv.start room
    obtain rfl := Option.some.inj (done.symm.trans started)
    exact kept
  | yield here picked done =>
    obtain ⟨s, switched, -, kept⟩ := inv.switch .user nofun picked
    obtain rfl := Option.some.inj (done.symm.trans switched)
    exact kept
  | finish here code picked done =>
    obtain ⟨s, switched, -, kept⟩ := inv.switch .finish (fun _ => code) picked
    obtain rfl := Option.some.inj (done.symm.trans switched)
    exact kept
  | @again s thd _ _ here going picked done =>
    obtain ⟨s, switched, -, kept⟩ := inv.switch (.wait thd) nofun picked
    obtain rfl := Option.some.inj (done.symm.trans switched)
    exact kept
  | wait here => exact { inv with here := nofun }
  | leave here ended => exact { inv with here := nofun }

theorem inv_reachable (h : coroutines.Reachable r) : Inv r := by
  refine h.induct Inv ?_ fun r l t inv step => inv_step inv step
  rintro r rfl
  refine ⟨Nat.le_refl _, by decide, rfl, rfl, rfl, nofun, fun c within other => ?_, fun c => ?_⟩
  · exact absurd (Nat.le_zero.mp within) other
  · simp [coInit]

/-- What a state shows of its coroutines. -/
structure Resumable (r : Run) : Prop where
  /-- Whoever waits to be resumed is saved at its own latest suspension, on its own stack. -/
  saved : ∀ c ≤ r.state.coNum, c ≠ r.state.cur → (r.state.crs c).done = false → Suspended r c
  /-- Wherever `co_yield` is called, the coroutine that its loop chooses can be jumped to. -/
  target : ∀ caller rands chosen, (caller = .finish → r.state.cur ≠ 0) →
    pickCur (beforeYield r.state caller) rands = some chosen →
      chosen ≤ r.state.coNum ∧ ((beforeYield r.state caller).crs chosen).done = false ∧
        (chosen = r.state.cur ∨ Saved r chosen) ∧
        ∃ s, coYield (beforeYield r.state caller) caller chosen = some s ∧ s.cur = chosen ∧ s.control ≠ .returned
  /-- A coroutine is done once its function has returned, and then it does not run. -/
  ended : ∀ c, c ∈ r.ended ↔ c ≤ r.state.coNum ∧ (r.state.crs c).done = true
  alive : r.state.cur ∉ r.ended ∧ r.state.control ≠ .returned
  /-- `co_wait` returns in the coroutine that waits, and when the other is done. -/
  returns : ∀ thd t, Step r (.leave thd) t → (t.state.crs thd).done = true ∧ t.state.cur = r.state.cur

theorem reachable_resumable (h : coroutines.Reachable r) : Resumable r := by
  have inv := inv_reachable h
  refine ⟨inv.suspended, fun caller rands chosen code picked => ?_, inv.ended, ⟨fun mem => ?_, inv.here⟩, ?_⟩
  · obtain ⟨s, switched, lands, kept⟩ := inv.switch caller code picked
    obtain ⟨within, live⟩ := pickCur_some picked
    rw [beforeYield_coNum] at within
    refine ⟨within, live, ?_, s, switched, lands, kept.here⟩
    by_cases self : chosen = r.state.cur
    · exact .inl self
    · rw [beforeYield_other _ self] at live
      exact .inr (inv.suspended chosen within self live).saved
  · have running := inv.running
    rw [((inv.ended _).mp mem).2] at running
    exact Bool.noConfusion running
  · intro thd t step
    cases step with
    | leave here ended => exact ⟨ended, rfl⟩

/-- `main` starts a coroutine, which yields back to it. -/
theorem reachable_resumable_sample : ∃ r, r.state.cur = 0 ∧ r.state.coNum = 1 ∧ Resumable r := by
  have init : coroutines.Reachable ⟨coInit, fun _ => none, []⟩ := .init rfl
  have started := init.step (.start rfl (by decide) (coStart_eq (by decide)))
  have back := started.step (.yield rfl (show pickCur _ [4] = some 0 from rfl) rfl)
  exact ⟨_, rfl, rfl, reachable_resumable back⟩

end OsLabs.Libco

import OsLabs.Libco.Coroutine

/-!
# Slots of `crs`

Which slot `co_start` returns, and which indices into `crs` the library uses. `co_start`
reads `co_num` when control is back in its caller, and `co_num` only grows.
-/

namespace OsLabs.Libco
open Function

variable {r t : Run} {s s' : State} {l : Label} {caller : Caller} {chosen co slot value : Nat}

/-- Who calls `co_yield` in a step, and whom its loop chooses. -/
def Label.switch : Label → Option (Caller × Nat)
  | .yield chosen => some (.user, chosen)
  | .finish chosen => some (.finish, chosen)
  | .again thd chosen => some (.wait thd, chosen)
  | .start | .wait _ | .leave _ => none

/-! ### What one step does -/

theorem restoreframe_some {num : Nat} (done : s.restoreframe num = some s') : ∃ sp, s' = { s with sp := sp } := by
  obtain ⟨sp, -, same⟩ := Option.bind_eq_some_iff.mp done
  exact ⟨sp, (Option.some.inj same).symm⟩

theorem resume_frame {site : Site} (done : s.resume site = some s') :
    s'.crs = s.crs ∧ s'.cur = s.cur ∧ s'.coNum = s.coNum := by
  unfold State.resume at done
  split at done
  · obtain ⟨m, restored, same⟩ := Option.bind_eq_some_iff.mp done
    obtain ⟨sp, rfl⟩ := restoreframe_some restored
    obtain rfl := Option.some.inj same
    exact ⟨rfl, rfl, rfl⟩
  · obtain ⟨m, restored, same⟩ := Option.bind_eq_some_iff.mp done
    obtain ⟨sp, rfl⟩ := restoreframe_some restored
    obtain rfl := Option.some.inj same
    exact ⟨rfl, rfl, rfl⟩
  · obtain rfl := Option.some.inj done
    exact ⟨rfl, rfl, rfl⟩

theorem coYield_frame (done : coYield s caller chosen = some s') : s'.cur = chosen ∧ s'.coNum = s.coNum ∧
    ∀ c, (s'.crs c).env = if c = s.cur then some ⟨.yield caller, s.enter.sp⟩ else (s.crs c).env := by
  unfold coYield at done
  obtain ⟨m, changed, done⟩ := Option.bind_eq_some_iff.mp done
  obtain ⟨sp, -, same⟩ := Option.bind_eq_some_iff.mp changed
  obtain rfl := Option.some.inj same
  obtain ⟨buf, -, done⟩ := Option.bind_eq_some_iff.mp done
  obtain ⟨crs, cur, coNum⟩ := resume_frame done
  refine ⟨cur, coNum, fun c => ?_⟩
  rw [crs]
  by_cases same : c = s.cur
  · simp [State.enter, State.setjmp, State.setCo, same]
  · simp [State.enter, State.setjmp, State.setCo, same]

theorem coStart_frame (inside : s.cur ≤ s.coNum) (done : coStart s = some s') :
    s'.cur = s.coNum + 1 ∧ s'.coNum = s.coNum + 1 ∧
      ∀ c, (s'.crs c).env = if c = s.cur then some ⟨.start, s.enter.sp⟩ else (s.crs c).env := by
  rw [coStart_eq inside] at done
  obtain rfl := Option.some.inj done
  refine ⟨rfl, rfl, fun c => ?_⟩
  by_cases same : c = s.cur
  · simp [same, Co.at]
  · by_cases new : c = s.coNum + 1
    · simp [new, show s.coNum + 1 ≠ s.cur by omega]
    · simp [same, new]

/-- A step starts a coroutine, switches to one, or leaves the globals alone. -/
theorem step_cases (step : Step r l t) :
    (l = .start ∧ r.state.coNum + 1 < maxCo ∧ coStart r.state = some t.state) ∨
    (∃ caller chosen, l.switch = some (caller, chosen) ∧
      coYield (beforeYield r.state caller) caller chosen = some t.state) ∨
    (l.switch = none ∧ l ≠ .start ∧ t.state.crs = r.state.crs ∧ t.state.cur = r.state.cur ∧
      t.state.coNum = r.state.coNum) := by
  cases step with
  | start here room done => exact .inl ⟨rfl, room, done⟩
  | yield here picked done => exact .inr (.inl ⟨_, _, rfl, done⟩)
  | finish here started picked done => exact .inr (.inl ⟨_, _, rfl, done⟩)
  | again here going picked done => exact .inr (.inl ⟨_, _, rfl, done⟩)
  | wait here => exact .inr (.inr ⟨rfl, nofun, rfl, rfl, rfl⟩)
  | leave here ended => exact .inr (.inr ⟨rfl, nofun, rfl, rfl, rfl⟩)

/-! ### What `co_start` returns -/

/-- Calls of `co_start` and returns from it, by the coroutine that made the call. -/
inductive Event where
  | call (co slot : Nat)
  | back (co value : Nat)

/-- The environment that `co_yield` jumps through. -/
def landing (s : State) (caller : Caller) (chosen : Nat) : Option Site :=
  ((s.enter.setjmp s.cur (.yield caller)).crs chosen).env.map JmpBuf.site

/-- `&(crs[co_num])`, the last line of `co_start`, as an index. -/
def coStartValue (s : State) : Nat := s.coNum

/-- The return from `co_start`, if it is there that a switch lands. -/
def returned (r : Run) (caller : Caller) (chosen : Nat) (t : Run) : List Event :=
  if landing (beforeYield r.state caller) caller chosen = some .start then [.back chosen (coStartValue t.state)] else []

/-- The calls of `co_start` made in a step, and the returns from it. -/
def eventsOf (r : Run) (l : Label) (t : Run) : List Event :=
  match l with
  | .start => [.call r.state.cur t.state.cur]
  | .yield chosen => returned r .user chosen t
  | .finish chosen => returned r .finish chosen t
  | .again thd chosen => returned r (.wait thd) chosen t
  | .wait _ | .leave _ => []

/-- A run, and its events so far, the latest first. -/
structure History where
  run : Run
  events : List Event

inductive History.Step : History → Label → History → Prop
  | step {h : History} {l : Label} {t : Run} (step : Libco.Step h.run l t) :
      History.Step h l ⟨t, eventsOf h.run l t ++ h.events⟩

def histories : Machine History Label where
  Init h := h = ⟨⟨coInit, fun _ => none, []⟩, []⟩
  Step := History.Step

/-- The slot created by the call of `co` that has not returned yet. -/
def pending (co : Nat) : List Event → Option Nat
  | [] => none
  | .call c slot :: events => if c = co then some slot else pending co events
  | .back c _ :: events => if c = co then none else pending co events

/-- Every call that returned has returned the slot that it created. -/
def ReturnsOwn : List Event → Prop
  | [] => True
  | .call _ _ :: events => ReturnsOwn events
  | .back co value :: events => pending co events = some value ∧ ReturnsOwn events

def latestCaller : List Event → Option Nat
  | [] => none
  | .call co _ :: _ => some co
  | .back _ _ :: events => latestCaller events

/-- No call was made between a call and its return. -/
def Undisturbed : List Event → Prop
  | [] => True
  | .call _ _ :: events => Undisturbed events
  | .back co _ :: events => latestCaller events = some co ∧ Undisturbed events

/-- The calls created the slots 1 to `n`, in this order. -/
def Numbered : List Event → Nat → Prop
  | [], n => n = 0
  | .call _ slot :: events, n => slot = n ∧ 0 < n ∧ Numbered events (n - 1)
  | .back _ _ :: events, n => Numbered events n

variable {events : List Event} {n : Nat} {h : History}

theorem pending_le (numbered : Numbered events n) (waits : pending co events = some slot) : slot ≤ n := by
  induction events generalizing n with
  | nil => cases waits
  | cons e events ih =>
    cases e with
    | call c new =>
      obtain ⟨rfl, positive, earlier⟩ := numbered
      rw [pending] at waits
      split at waits
      · exact Nat.le_of_eq (Option.some.inj waits).symm
      · exact Nat.le_trans (ih earlier waits) (Nat.sub_le _ _)
    | back c value =>
      rw [pending] at waits
      split at waits
      · cases waits
      · exact ih numbered waits

theorem pending_latest (numbered : Numbered events n) (waits : pending co events = some slot) :
    slot = n ↔ latestCaller events = some co := by
  induction events generalizing n with
  | nil => cases waits
  | cons e events ih =>
    cases e with
    | call c new =>
      obtain ⟨rfl, positive, earlier⟩ := numbered
      rw [pending] at waits
      split at waits
      · rename_i same
        exact iff_of_true (Option.some.inj waits).symm (congrArg some same)
      · rename_i other
        have below := pending_le earlier waits
        exact iff_of_false (by omega) fun same => other (Option.some.inj same)
    | back c value =>
      rw [pending] at waits
      split at waits
      · cases waits
      · exact ih numbered waits

theorem returned_le (numbered : Numbered events n) (own : ReturnsOwn events) (mem : .back co value ∈ events) :
    value ≤ n := by
  induction events generalizing n with
  | nil => cases mem
  | cons e events ih =>
    cases e with
    | call c new =>
      obtain ⟨rfl, positive, earlier⟩ := numbered
      have older := (List.mem_cons.mp mem).resolve_left nofun
      exact Nat.le_trans (ih earlier own older) (Nat.sub_le _ _)
    | back c other =>
      obtain ⟨waits, own⟩ := own
      rcases List.mem_cons.mp mem with same | older
      · obtain ⟨rfl, rfl⟩ := Event.back.inj same
        have bound : Numbered events n := numbered
        exact pending_le bound waits
      · exact ih numbered own older

/-- What a history shows of the calls that have not returned. -/
structure Recorded (h : History) : Prop where
  inv : Inv h.run
  numbered : Numbered h.events h.run.state.coNum
  waits : ∀ c, c ≠ h.run.state.cur → (h.run.state.crs c).env.map JmpBuf.site = some .start →
    ∃ slot, pending c h.events = some slot

theorem landing_other (other : chosen ≠ s.cur) :
    landing (beforeYield s caller) caller chosen = (s.crs chosen).env.map JmpBuf.site := by
  rw [landing, ← beforeYield_other caller other]
  simp [State.enter, State.setjmp, State.setCo, other]

theorem landing_self : landing (beforeYield s caller) caller s.cur = some (.yield caller) := by
  simp [landing, State.enter, State.setjmp, State.setCo]

theorem recorded_start {t : Run} (old : Recorded h) (inv : Inv t) (done : coStart h.run.state = some t.state) :
    Recorded ⟨t, .call h.run.state.cur t.state.cur :: h.events⟩ := by
  obtain ⟨cur, coNum, env⟩ := coStart_frame old.inv.started done
  refine ⟨inv, ?_, fun c other site => ?_⟩
  · show t.state.cur = t.state.coNum ∧ 0 < t.state.coNum ∧ Numbered h.events (t.state.coNum - 1)
    rw [cur, coNum]
    exact ⟨rfl, Nat.succ_pos _, old.numbered⟩
  · simp only [pending]
    split
    · exact ⟨_, rfl⟩
    · rename_i away
      rw [env, if_neg (Ne.symm away)] at site
      exact old.waits c (Ne.symm away) site

theorem recorded_switch {t : Run} (old : Recorded h) (inv : Inv t)
    (done : coYield (beforeYield h.run.state caller) caller chosen = some t.state) :
    Recorded ⟨t, returned h.run caller chosen t ++ h.events⟩ := by
  obtain ⟨cur, coNum, env⟩ := coYield_frame done
  rw [beforeYield_coNum] at coNum
  have waits (c : Nat) (other : c ≠ t.state.cur) (site : (t.state.crs c).env.map JmpBuf.site = some .start) :
      ∃ slot, pending c h.events = some slot := by
    rw [env, beforeYield_cur] at site
    by_cases same : c = h.run.state.cur
    · rw [if_pos same] at site
      cases site
    · rw [if_neg same, beforeYield_other caller same] at site
      exact old.waits c same site
  refine ⟨inv, ?_, fun c other site => ?_⟩
  · show Numbered _ t.state.coNum
    rw [coNum, returned]
    split <;> exact old.numbered
  · obtain ⟨slot, waiting⟩ := waits c other site
    refine ⟨slot, ?_⟩
    dsimp only
    rw [returned]
    split
    · rw [List.singleton_append, pending, if_neg fun same => other (same.symm.trans cur.symm), waiting]
    · exact waiting

theorem eventsOf_switch (switch : l.switch = some (caller, chosen)) : eventsOf r l t = returned r caller chosen t := by
  cases l with
  | yield | finish | again => cases switch; rfl
  | start | wait | leave => cases switch

theorem eventsOf_quiet (quiet : l.switch = none) (going : l ≠ .start) : eventsOf r l t = [] := by
  cases l with
  | yield | finish | again => cases quiet
  | start => exact absurd rfl going
  | wait | leave => rfl

theorem recorded_step {x : History} (old : Recorded h) (step : History.Step h l x) : Recorded x := by
  obtain ⟨step⟩ := step
  have inv := inv_step old.inv step
  rcases step_cases step with ⟨rfl, -, done⟩ | ⟨caller, chosen, switch, done⟩ | ⟨quiet, going, crs, cur, coNum⟩
  · exact recorded_start old inv done
  · rw [eventsOf_switch switch]
    exact recorded_switch old inv done
  · rw [eventsOf_quiet quiet going, List.nil_append]
    refine ⟨inv, coNum ▸ old.numbered, fun c other site => ?_⟩
    rw [crs] at site
    rw [cur] at other
    exact old.waits c other site

theorem recorded_reachable (reach : histories.Reachable h) : Recorded h := by
  refine reach.induct Recorded ?_ fun h l x old step => recorded_step old step
  rintro h rfl
  exact ⟨inv_reachable (.init rfl), rfl, fun c _ none => nomatch none⟩

/-- A return is right exactly when no call was made since its own. -/
theorem returnsOwn_step {x : History} (old : Recorded h) (step : History.Step h l x)
    (same : ReturnsOwn h.events ↔ Undisturbed h.events) : ReturnsOwn x.events ↔ Undisturbed x.events := by
  obtain ⟨step⟩ := step
  rcases step_cases step with ⟨rfl, -, done⟩ | ⟨caller, chosen, switch, done⟩ | ⟨quiet, going, -⟩
  · exact same
  · rw [eventsOf_switch switch, returned]
    split
    · rename_i lands
      obtain ⟨-, coNum, -⟩ := coYield_frame done
      rw [beforeYield_coNum] at coNum
      have other : chosen ≠ h.run.state.cur := by
        rintro rfl
        rw [landing_self] at lands
        cases lands
      rw [landing_other other] at lands
      obtain ⟨slot, waits⟩ := old.waits chosen other lands
      have right : pending chosen h.events = some h.run.state.coNum ↔ latestCaller h.events = some chosen := by
        rw [← pending_latest old.numbered waits, waits, Option.some.injEq]
      refine and_congr ?_ same
      rw [coStartValue, coNum]
      exact right
    · exact same
  · rw [eventsOf_quiet quiet going]
    exact same

/-- **In every run, each call of `co_start` that returned has returned the slot of the coroutine that it created if and
only if no other call was made between it and its return; and then `co_wait` on the value is left when this coroutine
has ended.** -/
theorem reachable_returnsOwn (reach : histories.Reachable h) :
    (ReturnsOwn h.events ↔ Undisturbed h.events) ∧
      (ReturnsOwn h.events → ∀ co value, .back co value ∈ h.events → ∀ t, Step h.run (.leave value) t →
        value ∈ t.ended) := by
  have recorded := recorded_reachable reach
  constructor
  · refine reach.induct_reachable (fun h => ReturnsOwn h.events ↔ Undisturbed h.events) ?_ ?_
    · rintro h rfl
      exact Iff.rfl
    · intro h l x before same step
      exact returnsOwn_step (recorded_reachable before) step same
  · intro own co value mem t left
    have bound : value ≤ h.run.state.coNum := returned_le recorded.numbered own mem
    cases left with
    | leave here ended => exact (recorded.inv.ended value).mpr ⟨bound, ended⟩

/-- `main` starts a coroutine, which starts another, which yields to `main`: `co_start` returns the second. -/
theorem reachable_returnsOwn_counterexample :
    ∃ h, histories.Reachable h ∧ h.events = [.back 0 2, .call 1 2, .call 0 1] ∧
    ¬ReturnsOwn h.events := by
  have init : histories.Reachable ⟨⟨coInit, fun _ => none, []⟩, []⟩ := .init rfl
  have first := init.step ⟨.start rfl (by decide) (coStart_eq (by decide))⟩
  have second := first.step ⟨.start rfl (by decide) (coStart_eq (by decide))⟩
  have back := second.step ⟨.yield rfl (show pickCur _ [3] = some 0 from rfl) rfl⟩
  exact ⟨_, back, rfl, fun own => absurd own.1 (by decide)⟩

/-- The same run without the second coroutine. -/
theorem reachable_returnsOwn_sample : ∃ h : History, h.events = [.back 0 1, .call 0 1] ∧ ReturnsOwn h.events := by
  have init : histories.Reachable ⟨⟨coInit, fun _ => none, []⟩, []⟩ := .init rfl
  have first := init.step ⟨.start rfl (by decide) (coStart_eq (by decide))⟩
  have back := first.step ⟨.yield rfl (show pickCur _ [4] = some 0 from rfl) rfl⟩
  exact ⟨_, rfl, (reachable_returnsOwn back).1.mpr ⟨rfl, trivial⟩⟩

/-! ### Which indices are used -/

/-- The values of `rand` that the loop of `co_yield` drew in a step. -/
def Draws (s : State) (l : Label) (rands : List Nat) : Prop :=
  match l.switch with
  | some (caller, chosen) => pickCur (beforeYield s caller) rands = some chosen
  | none => rands = []

/-- The indices into `crs` in `co_start` up to `func_`. -/
def coStartIndices (s : State) : List Nat := [s.coNum + 1, s.cur]

/-- The indices into `crs` in a step that does not overrun it. -/
def indices (s : State) (l : Label) (rands : List Nat) : List Nat :=
  match l with
  | .start => coStartIndices s
  | .yield chosen | .finish chosen | .again _ chosen => rands.map (· % (s.coNum + 1)) ++ [s.cur, chosen]
  | .wait _ | .leave _ => []

/-- Coroutines that were started and whose functions have not returned. -/
def unfinished (r : Run) : Nat := (List.range' 1 r.state.coNum).countP (· ∉ r.ended)

/-- A run until an index is out of bounds (then nothing is known of it), the indices used so far, the number of calls of
`co_start` and the largest number of coroutines that were unfinished at a time. -/
structure Usage where
  run : Option Run
  used : List Nat
  starts : Nat
  peak : Nat

def Label.starts : Label → Nat
  | .start => 1
  | _ => 0

inductive Usage.Step : Usage → Label → Usage → Prop
  | inside {u : Usage} {r t : Run} {l : Label} {rands : List Nat} (here : u.run = some r) (step : Libco.Step r l t)
      (draws : Draws r.state l rands) :
      Usage.Step u l ⟨some t, indices r.state l rands ++ u.used, u.starts + l.starts, max u.peak (unfinished t)⟩
  | overrun {u : Usage} {r : Run} (here : u.run = some r) (code : r.state.control = .user)
      (full : maxCo ≤ r.state.coNum + 1) :
      Usage.Step u .start ⟨none, coStartIndices r.state ++ u.used, u.starts + 1, u.peak⟩

def usages : Machine Usage Label where
  Init u := u = ⟨some ⟨coInit, fun _ => none, []⟩, [], 0, 0⟩
  Step := Usage.Step

variable {u : Usage} {i : Nat}

theorem indices_le {rands : List Nat} (inv : Inv r) (step : Step r l t) (mem : i ∈ indices r.state l rands) :
    i ≤ t.state.coNum := by
  have cur := inv.started
  have draws (chosen : Nat) (drawn : i ∈ rands.map (· % (r.state.coNum + 1)) ++ [r.state.cur, chosen])
      (within : chosen ≤ r.state.coNum) : i ≤ r.state.coNum := by
    rcases List.mem_append.mp drawn with drawn | named
    · obtain ⟨rand, -, rfl⟩ := List.mem_map.mp drawn
      exact Nat.le_of_lt_succ (Nat.mod_lt _ (Nat.succ_pos _))
    · simp only [List.mem_cons, List.not_mem_nil, or_false] at named
      rcases named with rfl | rfl
      · exact cur
      · exact within
  cases step with
  | start here room done =>
    obtain ⟨-, coNum, -⟩ := coStart_frame cur done
    simp only [indices, coStartIndices, List.mem_cons, List.not_mem_nil, or_false] at mem
    rw [coNum]
    rcases mem with rfl | rfl
    · exact Nat.le_refl _
    · exact Nat.le_succ_of_le cur
  | yield here picked done =>
    rw [(coYield_frame done).2.1]
    exact draws _ mem (pickCur_some picked).1
  | finish here started picked done =>
    rw [(coYield_frame done).2.1]
    exact draws _ mem (pickCur_some picked).1
  | again here going picked done =>
    rw [(coYield_frame done).2.1]
    exact draws _ mem (pickCur_some picked).1
  | wait here => cases mem
  | leave here ended => cases mem

/-- What a run shows of its indices: `co_num` counts the calls of `co_start`, until one of them is out of bounds. -/
structure Counted (u : Usage) : Prop where
  inside : ∀ r, u.run = some r → Inv r ∧ r.state.coNum = u.starts ∧ ∀ i ∈ u.used, i < maxCo
  outside : u.run = none → maxCo ≤ u.starts ∧ ∃ i ∈ u.used, maxCo ≤ i

theorem coNum_step (inv : Inv r) (step : Step r l t) : t.state.coNum = r.state.coNum + l.starts := by
  cases step with
  | start here room done => exact (coStart_frame inv.started done).2.1
  | yield here picked done => exact (coYield_frame done).2.1
  | finish here started picked done => exact (coYield_frame done).2.1
  | again here going picked done => exact (coYield_frame done).2.1
  | wait here => rfl
  | leave here ended => rfl

theorem counted_step {v : Usage} (old : Counted u) (step : Usage.Step u l v) : Counted v := by
  cases step with
  | inside here step draws =>
    rename_i r t rands
    obtain ⟨inv, starts, used⟩ := old.inside r here
    have kept := inv_step inv step
    refine ⟨fun t' same => ?_, nofun⟩
    obtain rfl := Option.some.inj same
    refine ⟨kept, (coNum_step inv step).trans (congrArg (· + l.starts) starts), fun i mem => ?_⟩
    rcases List.mem_append.mp mem with new | before
    · exact Nat.lt_of_le_of_lt (indices_le inv step new) kept.room
    · exact used i before
  | overrun here code full =>
    rename_i r
    obtain ⟨inv, starts, -⟩ := old.inside r here
    refine ⟨nofun, fun _ => ⟨starts ▸ full, r.state.coNum + 1, ?_, full⟩⟩
    exact List.mem_append_left _ List.mem_cons_self

theorem counted_reachable (reach : usages.Reachable u) : Counted u := by
  refine reach.induct Counted ?_ fun u l v old step => counted_step old step
  rintro u rfl
  refine ⟨fun r same => ?_, nofun⟩
  obtain rfl := Option.some.inj same
  exact ⟨inv_reachable (.init rfl), rfl, fun i none => nomatch none⟩

/-- **In every run, every index is below `MAX_CO` if and only if `co_start` was called fewer than `MAX_CO` times.** -/
theorem usage_inside_iff (reach : usages.Reachable u) : (∀ i ∈ u.used, i < maxCo) ↔ u.starts < maxCo := by
  have counted := counted_reachable reach
  cases here : u.run with
  | some r =>
    obtain ⟨inv, starts, used⟩ := counted.inside r here
    exact iff_of_true used (starts ▸ inv.room)
  | none =>
    obtain ⟨many, i, mem, beyond⟩ := counted.outside here
    exact iff_of_false (fun all => Nat.not_lt.mpr beyond (all i mem)) (Nat.not_lt.mpr many)

theorem unfinished_le_one {n : Nat} (coNum : r.state.coNum = n + 1) (ended : ∀ c, 1 ≤ c → c ≤ n → c ∈ r.ended) :
    unfinished r ≤ 1 := by
  have old : (List.range' 1 n).countP (· ∉ r.ended) = 0 := by
    apply List.countP_eq_zero.mpr
    intro c mem
    obtain ⟨low, high⟩ := List.mem_range'_1.mp mem
    simpa using ended c low (by omega)
  rw [unfinished, coNum, List.range'_1_concat, List.countP_append, old, Nat.zero_add]
  exact List.countP_le_length

/-- `main` starts `n` coroutines, each of which ends at once and goes back to `main`. -/
theorem started_one_by_one (n : Nat) (room : n < maxCo) : ∃ u r, usages.Reachable u ∧ u.run = some r ∧
    r.state.coNum = n ∧ r.state.cur = 0 ∧ r.state.control = .user ∧ (∀ c, 1 ≤ c → c ≤ n → c ∈ r.ended) ∧
    u.peak ≤ 1 := by
  induction n with
  | zero =>
    refine ⟨_, _, .init rfl, rfl, rfl, rfl, rfl, fun c low high => ?_, Nat.zero_le _⟩
    omega
  | succ n ih =>
    obtain ⟨u, r, reach, here, coNum, cur, code, ended, peak⟩ := ih (Nat.lt_of_succ_lt room)
    have inv := ((counted_reachable reach).inside r here).1
    obtain ⟨s, begun, inv₁⟩ := inv.start (by rw [coNum]; exact room)
    obtain ⟨cur₁, coNum₁, env₁⟩ := coStart_frame inv.started begun
    rw [coNum] at cur₁ coNum₁
    have first : usages.Reachable _ :=
      reach.step (.inside here (.start code (by rw [coNum]; exact room) begun) (show Draws r.state .start [] from rfl))
    have other : (0 : Nat) ≠ s.cur := by omega
    have user : s.control = .user := by
      rw [coStart_eq inv.started] at begun
      rw [← Option.some.inj begun]
    have picked : pickCur (beforeYield s .finish) [0] = some 0 := by
      have live : ((beforeYield s .finish).crs 0).done = false := by
        rw [beforeYield_other .finish other]
        exact inv₁.main
      simp [pickCur, live]
    obtain ⟨buf, -, env, stackptr, -⟩ := inv₁.suspended 0 (Nat.zero_le _) other inv₁.main
    have main : buf.site = .start := by
      have saved := env₁ 0
      rw [if_pos cur.symm] at saved
      rw [Option.some.inj (env.symm.trans saved)]
    have landed : coYield (beforeYield s .finish) .finish 0 = some _ :=
      coYield_other .finish (by rwa [beforeYield_cur]) ((congrArg Co.env (beforeYield_other .finish other)).trans env)
        ((congrArg Co.stackptr (beforeYield_other .finish other)).trans stackptr)
    have second := first.step (.inside rfl (.finish user (Ne.symm other) picked landed)
      (show Draws s (.finish 0) [0] from picked))
    refine ⟨_, _, second, rfl, coNum₁, rfl, congrArg Site.control main, fun c low high => ?_, ?_⟩
    · rcases Nat.lt_or_eq_of_le high with old | rfl
      · exact List.mem_cons_of_mem _ (ended c low (by omega))
      · exact cur₁ ▸ List.mem_cons_self
    · refine Nat.max_le.mpr ⟨Nat.max_le.mpr ⟨peak, unfinished_le_one coNum₁ ended⟩, unfinished_le_one coNum₁ ?_⟩
      exact fun c low high => List.mem_cons_of_mem _ (ended c low high)

/-- Ten coroutines are started, one after the end of the other. -/
theorem usage_inside_iff_counterexample : ∃ u, usages.Reachable u ∧ u.peak ≤ maxCo - 1 ∧ ¬∀ i ∈ u.used, i < maxCo := by
  obtain ⟨u, r, reach, here, coNum, -, code, -, peak⟩ := started_one_by_one 9 (by decide)
  have last := reach.step (.overrun here code (by rw [coNum]; decide))
  refine ⟨_, last, Nat.le_trans peak (by decide), fun all => ?_⟩
  exact absurd (all (r.state.coNum + 1) List.mem_cons_self) (by rw [coNum]; decide)

theorem usage_inside_iff_sample : ∃ u : Usage, u.starts = 1 ∧ ∀ i ∈ u.used, i < maxCo := by
  have init : usages.Reachable ⟨some ⟨coInit, fun _ => none, []⟩, [], 0, 0⟩ := .init rfl
  have one :=
    init.step (.inside rfl (.start rfl (by decide) (coStart_eq (by decide))) (show Draws coInit .start [] from rfl))
  exact ⟨_, rfl, (usage_inside_iff one).mpr (by decide)⟩

end OsLabs.Libco

import Mathlib.Algebra.Group.Int.Defs
import Mathlib.Algebra.Group.Nat.Defs
import Mathlib.Logic.Function.Basic
import Mathlib.Data.List.FinRange
import OsLabs.Data.Integer

/-!
# amgame

The obstacles and the score of the game: `restart`, `game_progress`, `screen_update` and
the keys. What is drawn is left out. `none` is a remainder by 0.
-/

namespace OsLabs.Amgame
open Function

/-- `struct Item`. The flags `valid` and `count` are only set to 0 and 1. -/
structure Item where
  ddx : Int
  ddy : Int
  dx : Int
  dy : Int
  x : Int
  y : Int
  w : Int
  h : Int
  valid : Bool
  count : Bool
  deriving DecidableEq, Repr

def Item.zero : Item := ⟨0, 0, 0, 0, 0, 0, 0, 0, false, false⟩

def Item.update (item : Item) : Item :=
  let dx := int (item.dx + item.ddx)
  let dy := int (item.dy + item.ddy)
  { item with dx := dx, dy := dy, x := int (item.x + dx), y := int (item.y + dy) }

def InBound (height : Int) (item : Item) : Prop := 10 ≤ item.x ∧ 0 ≤ item.y ∧ int (item.y + item.h) ≤ height

def Collide (player item : Item) : Prop :=
  item.x < int (player.x + player.w) ∧ player.x < int (item.x + item.w) ∧
  item.y < int (player.y + player.h) ∧ player.y < int (item.y + item.h)

instance (height : Int) (item : Item) : Decidable (InBound height item) := inferInstanceAs (Decidable (_ ∧ _ ∧ _))

instance (player item : Item) : Decidable (Collide player item) := inferInstanceAs (Decidable (_ ∧ _ ∧ _ ∧ _))

/-- The global variables, with the static `counter` of `game_progress`. -/
structure Game where
  width : Int
  height : Int
  fail : Bool
  numObs : Int
  score : Int
  counter : Nat
  player : Item
  obs : Fin 10 → Item

/-- The memory when `main` has asked for the size of the screen. -/
def Game.start (width height : Int) : Game := ⟨width, height, false, 0, 0, 0, .zero, fun _ => .zero⟩

def obsFlash : Nat := 15

/-! ### Obstacles -/

def randMod (rand : Nat) (m : Int) : Option Int := if m = 0 then none else some ((rand : Int).tmod m)

def randSpeed (rand : Nat) : Int := -(rand % 7 : Nat) - 3

/-- The switch of `init_obs`; there is no case 0. `rand k` is what the call number `k` of `rand` gives. -/
def switchObs (height : Int) (rand : Nat → Nat) (obs : Item) : Option Item :=
  match rand 0 % 7 with
  | 1 | 2 => do
    let y ← randMod (rand 1) (height.tdiv 3)
    let h ← randMod (rand 2) (height.tdiv 2)
    some { obs with y := y, h := int (h + height.tdiv 5), dx := randSpeed (rand 3), ddx := 0 }
  | 3 => do
    let y ← randMod (rand 1) (height.tdiv 2)
    let h ← randMod (rand 2) (height.tdiv 3)
    some { obs with y := y, h := int (h + height.tdiv 5), dx := -1, ddx := -1 }
  | 4 => do
    let h ← randMod (rand 1) (height.tdiv 3)
    let y ← randMod (rand 2) (height.tdiv 2)
    some { obs with h := int (h + height.tdiv 5), y := int (height - y), dx := -1, ddx := -1 }
  | 5 | 6 => do
    let h ← randMod (rand 1) (height.tdiv 2)
    let y ← randMod (rand 2) (height.tdiv 2)
    some { obs with
      h := int (h + height.tdiv 5), y := int (int (height - y) - height.tdiv 5), dx := randSpeed (rand 3), ddx := 0 }
  | _ => some obs

def clip (height : Int) (obs : Item) : Item :=
  if height ≤ int (obs.h + obs.y) then { obs with h := int (int (height - obs.y) - 5) } else obs

def initObs (width height : Int) (rand : Nat → Nat) (obs : Item) : Option Item := do
  let obs ← switchObs height rand { obs with x := int (width - 10), dy := 0, ddy := 0, w := width.tdiv 200 }
  some { clip height obs with valid := true, count := true }

/-! ### The calls -/

def Game.setObs (g : Game) (i : Fin 10) (obs : Item) : Game := { g with obs := update g.obs i obs }

/-- `if (obs[i].x<player.x && obs[i].count)`: the player has passed the obstacle. -/
def Game.countObs (g : Game) (i : Fin 10) : Game :=
  if (g.obs i).x < g.player.x ∧ (g.obs i).count then
    { g.setObs i { g.obs i with count := false } with score := int (g.score + 1) }
  else g

/-- `if (!INBOUND(&obs[i]))`: the slot is given up. -/
def Game.retireObs (g : Game) (i : Fin 10) : Game :=
  if InBound g.height (g.obs i) then g
  else { g.setObs i { g.obs i with valid := false } with numObs := int (g.numObs - 1) }

def Game.passObs (g : Game) (i : Fin 10) : Game := (g.countObs i).retireObs i

def Game.spawnObs (g : Game) (i : Fin 10) (obs : Item) : Game :=
  { g.setObs i obs with numObs := int (g.numObs + 1) }

/-- The loop of `game_progress` over the slots that are left. -/
def progressLoop (rand : Nat → Nat) : List (Fin 10) → Bool → Game → Option Game
  | [], _, g => some g
  | i :: slots, add, g =>
    if (g.obs i).valid then
      if Collide g.player (g.obs i) then some { g with fail := true }
      else progressLoop rand slots add (g.passObs i)
    else if add then do
      let obs ← initObs g.width g.height rand (g.obs i)
      progressLoop rand slots false (g.spawnObs i obs)
    else progressLoop rand slots add g

def Game.tick (g : Game) : Game := { g with counter := (g.counter + 1) % obsFlash }

def Game.add (g : Game) : Bool := g.counter = 0 ∧ g.numObs < 8

def gameProgress (g : Game) (rand : Nat → Nat) : Option Game :=
  if InBound g.height g.player then progressLoop rand (List.finRange 10) g.tick.add g.tick
  else some { g.tick with fail := true }

def screenUpdate (g : Game) : Game :=
  { g with
    player := g.player.update
    obs := fun i => if (g.obs i).valid then (g.obs i).update else g.obs i }

def initPlayer (width height : Int) (player : Item) : Item :=
  { player with
    x := width.tdiv 3, y := height.tdiv 3, dy := 0, ddx := 0, dx := 0, ddy := 2, w := 20, h := 20, valid := true }

def restart (g : Game) : Game :=
  { g with
    fail := false
    obs := fun i => { g.obs i with valid := false }
    player := initPlayer g.width g.height g.player
    numObs := 0
    score := 0 }

/-- What `main` does for the space key: it goes down, for the first time since it went up or not, or it goes up. -/
inductive Key where
  | down (first : Bool)
  | up
  deriving DecidableEq, Repr

def press (g : Game) : Key → Game
  | .down first => { g with player := { g.player with dy := if first then -5 else g.player.dy, ddy := -3 } }
  | .up => { g with player := { g.player with ddy := 2 } }

inductive Call where
  | restart
  | progress (rand : Nat → Nat)
  | update
  | key (key : Key)

def Game.call (g : Game) : Call → Option Game
  | .restart => some (Amgame.restart g)
  | .progress rand => gameProgress g rand
  | .update => some (screenUpdate g)
  | .key key => some (press g key)

/-! ### One slot of the loop -/

variable {g g' : Game} {rand : Nat → Nat} {slots : List (Fin 10)} {add : Bool} {i j : Fin 10} {obs : Item}

theorem setObs_other (other : j ≠ i) : (g.setObs i obs).obs j = g.obs j := update_of_ne other _ _

theorem setObs_same : (g.setObs i obs).obs i = obs := update_self _ _ _

theorem spawnObs_other (other : j ≠ i) : (g.spawnObs i obs).obs j = g.obs j := setObs_other other

theorem spawnObs_same : (g.spawnObs i obs).obs i = obs := setObs_same

def Game.passed (g : Game) (obs : Item) : Item :=
  { obs with
    count := obs.count && !decide (obs.x < g.player.x)
    valid := obs.valid && decide (InBound g.height obs) }

theorem countObs_eq : g.countObs i =
    { g.setObs i { g.obs i with count := (g.obs i).count && !decide ((g.obs i).x < g.player.x) } with
      score := if (g.obs i).x < g.player.x ∧ (g.obs i).count then int (g.score + 1) else g.score } := by
  unfold Game.countObs
  split
  · rename_i behind
    simp [behind.1]
  · rename_i ahead
    have same : ((g.obs i).count && !decide ((g.obs i).x < g.player.x)) = (g.obs i).count := by
      cases counts : (g.obs i).count
      · rfl
      · simp only [counts, and_true] at ahead
        simp [ahead]
    simp [same, Game.setObs]

theorem retireObs_eq (valid : (g.obs i).valid = true) : g.retireObs i =
    { g.setObs i { g.obs i with valid := decide (InBound g.height (g.obs i)) } with
      numObs := if InBound g.height (g.obs i) then g.numObs else int (g.numObs - 1) } := by
  unfold Game.retireObs
  split
  · rename_i inside
    simp [inside, ← valid, Game.setObs]
  · rename_i outside
    simp [outside]

theorem passObs_eq (valid : (g.obs i).valid = true) : g.passObs i =
    { g.setObs i (g.passed (g.obs i)) with
      score := if (g.obs i).x < g.player.x ∧ (g.obs i).count then int (g.score + 1) else g.score
      numObs := if InBound g.height (g.obs i) then g.numObs else int (g.numObs - 1) } := by
  unfold Game.passObs
  rw [countObs_eq, retireObs_eq (by simp [Game.setObs, valid])]
  simp only [Game.setObs, Game.passed, update_self, update_idem, valid, Bool.true_and]
  rfl

theorem initObs_flags {width height : Int} {old : Item} (init : initObs width height rand old = some obs) :
    obs.valid = true ∧ obs.count = true := by
  unfold initObs at init
  obtain ⟨drawn, -, init⟩ := Option.bind_eq_some_iff.mp init
  obtain rfl := Option.some.inj init
  exact ⟨rfl, rfl⟩

/-! ### The loop -/

/-- The loop, with the five ways in which it goes on from a slot. -/
inductive Pass (rand : Nat → Nat) : List (Fin 10) → Bool → Game → Game → Prop where
  | done {add : Bool} {g : Game} : Pass rand [] add g g
  | hit {i : Fin 10} {slots : List (Fin 10)} {add : Bool} {g : Game} (valid : (g.obs i).valid = true)
      (hit : Collide g.player (g.obs i)) : Pass rand (i :: slots) add g { g with fail := true }
  | passed {i : Fin 10} {slots : List (Fin 10)} {add : Bool} {g g' : Game} (valid : (g.obs i).valid = true)
      (clear : ¬ Collide g.player (g.obs i)) (rest : Pass rand slots add (g.passObs i) g') :
      Pass rand (i :: slots) add g g'
  | spawned {i : Fin 10} {slots : List (Fin 10)} {g g' : Game} {obs : Item} (free : (g.obs i).valid = false)
      (init : initObs g.width g.height rand (g.obs i) = some obs) (rest : Pass rand slots false (g.spawnObs i obs) g') :
      Pass rand (i :: slots) true g g'
  | free {i : Fin 10} {slots : List (Fin 10)} {g g' : Game} (free : (g.obs i).valid = false)
      (rest : Pass rand slots false g g') : Pass rand (i :: slots) false g g'

theorem progressLoop_pass (done : progressLoop rand slots add g = some g') : Pass rand slots add g g' := by
  induction slots generalizing add g with
  | nil =>
    obtain rfl := Option.some.inj done
    exact .done
  | cons i slots ih =>
    unfold progressLoop at done
    split at done
    · rename_i valid
      split at done
      · rename_i hit
        obtain rfl := Option.some.inj done
        exact .hit valid hit
      · rename_i clear
        exact .passed valid clear (ih done)
    · rename_i free
      have free := eq_false_of_ne_true free
      split at done
      · rename_i adds
        obtain ⟨obs, init, done⟩ := Option.bind_eq_some_iff.mp done
        rw [adds]
        exact .spawned free init (ih done)
      · rename_i adds
        have adds := eq_false_of_ne_true adds
        rw [adds] at done ⊢
        exact .free free (ih done)

theorem Pass.screen (pass : Pass rand slots add g g') :
    g'.width = g.width ∧ g'.height = g.height ∧ g'.player = g.player ∧ g'.counter = g.counter := by
  induction pass with
  | done => exact ⟨rfl, rfl, rfl, rfl⟩
  | hit => exact ⟨rfl, rfl, rfl, rfl⟩
  | passed valid clear rest ih =>
    rw [passObs_eq valid] at ih
    exact ih
  | spawned free init rest ih => exact ih
  | free free rest ih => exact ih

theorem passObs_other (valid : (g.obs i).valid = true) (other : j ≠ i) : (g.passObs i).obs j = g.obs j := by
  rw [passObs_eq valid]
  exact setObs_other other

theorem passObs_same (valid : (g.obs i).valid = true) : (g.passObs i).obs i = g.passed (g.obs i) := by
  rw [passObs_eq valid]
  exact setObs_same

/-- A slot that is not among those left stays as it is. -/
theorem Pass.other (pass : Pass rand slots add g g') (other : j ∉ slots) : g'.obs j = g.obs j := by
  induction pass with
  | done => rfl
  | hit => rfl
  | passed valid clear rest ih =>
    rw [ih (List.not_mem_of_not_mem_cons other), passObs_other valid (List.ne_of_not_mem_cons other)]
  | spawned free init rest ih =>
    rw [ih (List.not_mem_of_not_mem_cons other), spawnObs_other (List.ne_of_not_mem_cons other)]
  | free free rest ih => exact ih (List.not_mem_of_not_mem_cons other)

/-- What the loop does with the slot `j`. -/
theorem Pass.slot (pass : Pass rand slots add g g') (distinct : slots.Nodup) (j : Fin 10) :
    g'.obs j = g.obs j ∨
    ((g.obs j).valid = true ∧ ¬ Collide g.player (g.obs j) ∧ g'.obs j = g.passed (g.obs j)) ∨
    ((g.obs j).valid = false ∧ add = true ∧ initObs g.width g.height rand (g.obs j) = some (g'.obs j)) := by
  induction pass with
  | done => exact Or.inl rfl
  | hit => exact Or.inl rfl
  | @passed i slots add g g' valid clear rest ih =>
    have ⟨outside, distinct⟩ := List.nodup_cons.mp distinct
    by_cases same : j = i
    · subst same
      rw [rest.other outside, passObs_same valid]
      exact Or.inr (Or.inl ⟨valid, clear, rfl⟩)
    · have step := ih distinct
      rw [passObs_other valid same, passObs_eq valid] at step
      exact step
  | @spawned i slots g g' obs free init rest ih =>
    have ⟨outside, distinct⟩ := List.nodup_cons.mp distinct
    by_cases same : j = i
    · subst same
      rw [rest.other outside, spawnObs_same]
      exact Or.inr (Or.inr ⟨free, rfl, init⟩)
    · rcases ih distinct with step | step | ⟨-, none, -⟩
      · exact Or.inl (step.trans (spawnObs_other same))
      · rw [spawnObs_other same] at step
        exact Or.inr (Or.inl step)
      · cases none
  | free free rest ih => exact ih (List.nodup_cons.mp distinct).2

/-- Where an obstacle appears: in the first slot that is free, once those before it have been passed. -/
theorem Pass.first (pass : Pass rand slots add g g') (sorted : slots.Pairwise (· < ·)) (free : (g.obs j).valid = false)
    (appears : (g'.obs j).valid = true) :
    add = true ∧ ∀ k ∈ slots, k < j → (g.obs k).valid = true ∧ ¬ Collide g.player (g.obs k) := by
  induction pass with
  | done => simp [free] at appears
  | hit => simp [free] at appears
  | @passed i slots add g g' valid clear rest ih =>
    have ⟨after, sorted⟩ := List.pairwise_cons.mp sorted
    have other : j ≠ i := by
      intro same
      rw [same, valid] at free
      cases free
    obtain ⟨adds, before⟩ := ih sorted (by rwa [passObs_other valid other]) appears
    refine ⟨adds, ?_⟩
    intro k mem less
    rcases List.mem_cons.mp mem with rfl | mem
    · exact ⟨valid, clear⟩
    · have step := before k mem less
      rw [passObs_other valid (after k mem).ne', passObs_eq valid] at step
      exact step
  | @spawned i slots g g' obs open' init rest ih =>
    have ⟨after, sorted⟩ := List.pairwise_cons.mp sorted
    refine ⟨rfl, ?_⟩
    by_cases same : j = i
    · subst same
      intro k mem less
      rcases List.mem_cons.mp mem with rfl | mem
      · exact absurd less (lt_irrefl _)
      · exact absurd less (lt_asymm (after k mem))
    · cases (ih sorted (by rwa [spawnObs_other same]) appears).1
  | free free' rest ih => cases (ih (List.pairwise_cons.mp sorted).2 free appears).1

/-- A loop without a collision comes to every slot. -/
theorem Pass.clear (pass : Pass rand slots add g g') (distinct : slots.Nodup)
    (clear : ∀ k ∈ slots, (g.obs k).valid = true → ¬ Collide g.player (g.obs k)) (mem : j ∈ slots)
    (valid : (g.obs j).valid = true) : g'.obs j = g.passed (g.obs j) := by
  induction pass with
  | done => cases mem
  | hit valid' hit => exact absurd hit (clear _ List.mem_cons_self valid')
  | @passed i slots add g g' valid' clear' rest ih =>
    have ⟨outside, distinct⟩ := List.nodup_cons.mp distinct
    by_cases same : j = i
    · subst same
      rw [rest.other outside, passObs_same valid']
    · have kept : ∀ k ∈ slots, (g.passObs i).obs k = g.obs k := by
        intro k mem
        exact passObs_other valid' fun same => outside (same ▸ mem)
      have mem := List.mem_of_ne_of_mem same mem
      have step := ih distinct (by
        intro k mem valid
        rw [kept k mem] at valid ⊢
        rw [passObs_eq valid']
        exact clear k (List.mem_cons_of_mem _ mem) valid) mem (by rwa [kept j mem])
      rw [kept j mem, passObs_eq valid'] at step
      exact step
  | @spawned i slots g g' obs free init rest ih =>
    have ⟨outside, distinct⟩ := List.nodup_cons.mp distinct
    have kept : ∀ k ∈ slots, (g.spawnObs i obs).obs k = g.obs k := by
      intro k mem
      exact spawnObs_other fun same => outside (same ▸ mem)
    have mem : j ∈ slots := by
      apply List.mem_of_ne_of_mem _ mem
      intro same
      rw [same, free] at valid
      cases valid
    have step := ih distinct (by
      intro k mem valid
      rw [kept k mem] at valid ⊢
      exact clear k (List.mem_cons_of_mem _ mem) valid) mem (by rwa [kept j mem])
    rwa [kept j mem] at step
  | @free i slots g g' free rest ih =>
    have mem : j ∈ slots := by
      apply List.mem_of_ne_of_mem _ mem
      intro same
      rw [same, free] at valid
      cases valid
    exact ih (List.nodup_cons.mp distinct).2 (fun k mem => clear k (List.mem_cons_of_mem _ mem)) mem valid

/-- Nothing happens while there are no obstacles and none is due. -/
theorem progressLoop_idle (free : ∀ i ∈ slots, (g.obs i).valid = false) :
    progressLoop rand slots false g = some g := by
  induction slots with
  | nil => rfl
  | cons i slots ih =>
    unfold progressLoop
    rw [free i List.mem_cons_self, if_neg Bool.false_ne_true, if_neg Bool.false_ne_true]
    exact ih fun j mem => free j (List.mem_cons_of_mem _ mem)

end OsLabs.Amgame

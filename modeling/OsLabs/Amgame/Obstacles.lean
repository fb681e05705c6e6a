import OsLabs.Amgame.Model
import OsLabs.Data.Machine

/-!
# The obstacles of the game

Where `init_obs` puts an obstacle, and its way to the left edge. There is no case 0 in the
switch of `init_obs`, and case 4 can put an obstacle below the screen.
-/

namespace OsLabs.Amgame
open Function

structure Screen (width height : Int) : Prop where
  wide : 200 ≤ width
  high : 100 ≤ height
  widthInt : width < 2 ^ 31
  heightInt : height < 2 ^ 31

/-- A rectangle on the screen that moves to the left. -/
def Proper (height : Int) (obs : Item) : Prop := 0 ≤ obs.y ∧ 0 < obs.h ∧ obs.y + obs.h ≤ height ∧ obs.dx < 0

instance (height : Int) (obs : Item) : Decidable (Proper height obs) := inferInstanceAs (Decidable (_ ∧ _ ∧ _ ∧ _))

/-- What `clip` makes a proper rectangle of. -/
def Clippable (height : Int) (obs : Item) : Prop :=
  0 ≤ obs.y ∧ obs.dx < 0 ∧ obs.y + obs.h < 2 ^ 31 ∧
    if obs.y + obs.h < height then 0 < obs.h else obs.y + 5 < height

/-- The outcomes of `rand` for which `init_obs` makes a proper obstacle of what the slot held before. -/
def Drawn (height : Int) (rand : Nat → Nat) (old : Item) : Prop :=
  match rand 0 % 7 with
  | 1 | 2 => (rand 1 : Int) % (height / 3) + ((rand 2 : Int) % (height / 2) + height / 5) < 2 ^ 31
  | 3 => (rand 1 : Int) % (height / 2) + ((rand 2 : Int) % (height / 3) + height / 5) < 2 ^ 31
  | 4 => 6 ≤ (rand 2 : Int) % (height / 2) ∧
      height - (rand 2 : Int) % (height / 2) + ((rand 1 : Int) % (height / 3) + height / 5) < 2 ^ 31
  | 5 | 6 => height - (rand 2 : Int) % (height / 2) - height / 5 + ((rand 1 : Int) % (height / 2) + height / 5) < 2 ^ 31
  | _ => Clippable height old

variable {width height : Int} {g g' : Game} {rand : Nat → Nat} {i j : Fin 10} {obs old : Item}

/-! ### One obstacle -/

theorem randMod_eq (n : Nat) {m : Int} (positive : 0 < m) :
    randMod n m = some ((n : Int) % m) ∧ 0 ≤ (n : Int) % m ∧ (n : Int) % m < m := by
  refine ⟨?_, Int.emod_nonneg _ positive.ne', Int.emod_lt_of_pos _ positive⟩
  unfold randMod
  rw [if_neg positive.ne', Int.tmod_eq_emod_of_nonneg (Int.natCast_nonneg n)]

theorem randSpeed_neg (n : Nat) : randSpeed n < 0 := by
  unfold randSpeed
  omega

theorem clip_proper (screen : Screen width height) (y : InInt obs.y) (h : InInt obs.h) :
    Proper height (clip height obs) ↔ Clippable height obs := by
  obtain ⟨-, high, -, heightInt⟩ := screen
  unfold InInt at y h
  unfold clip Clippable Proper
  by_cases above : 0 ≤ obs.y
  · have shrunk : int (int (height - obs.y) - 5) = height - obs.y - 5 := by
      rw [int_eq (x := height - obs.y) ⟨by omega, by omega⟩, int_eq ⟨by omega, by omega⟩]
    by_cases fits : obs.h + obs.y < 2 ^ 31
    · rw [int_eq (x := obs.h + obs.y) ⟨by omega, fits⟩]
      split
      · rename_i clipped
        rw [if_neg (by omega)]
        dsimp only
        rw [shrunk]
        omega
      · rename_i inside
        rw [if_pos (by omega)]
        omega
    · rw [int_wraps (by omega) (by omega), if_neg (by omega)]
      omega
  · split <;> simp [above]

theorem clippable_iff : Clippable height obs ↔ 0 ≤ obs.y ∧ obs.dx < 0 ∧ obs.y + obs.h < 2 ^ 31 ∧
    (obs.y + obs.h < height → 0 < obs.h) ∧ (height ≤ obs.y + obs.h → obs.y + 5 < height) := by
  unfold Clippable
  split <;> omega

/-- What the switch of `init_obs` says about an obstacle before the clipping. -/
structure Switched (height : Int) (rand : Nat → Nat) (old obs : Item) : Prop where
  y : InInt obs.y
  h : InInt obs.h
  place : obs.x = old.x ∧ obs.w = old.w
  still : obs.dy = old.dy ∧ obs.ddy = old.ddy
  ddx : obs.ddx = 0 ∨ obs.ddx = -1 ∨ obs.ddx = old.ddx
  drawn : Clippable height obs ↔ Drawn height rand old

/-- The cases that hang an obstacle from the upper edge. -/
theorem switched_upper (high : 100 ≤ height) (heightInt : height < 2 ^ 31) {m n dx ddx : Int} {a b : Nat}
    (room : 0 < m ∧ m ≤ height / 2 ∧ 0 < n ∧ n ≤ height / 2) (moves : dx < 0) (speeds : ddx = 0 ∨ ddx = -1)
    (drawn : Drawn height rand old ↔ (a : Int) % m + ((b : Int) % n + height / 5) < 2 ^ 31) :
    ∃ obs, (do
      let y ← randMod a m
      let h ← randMod b n
      some { old with y := y, h := int (h + height / 5), dx := dx, ddx := ddx }) = some obs ∧
      Switched height rand old obs := by
  obtain ⟨first, low, less⟩ := randMod_eq a room.1
  obtain ⟨second, low', less'⟩ := randMod_eq b room.2.2.1
  have sum : int ((b : Int) % n + height / 5) = (b : Int) % n + height / 5 := int_eq ⟨by omega, by omega⟩
  rw [first, second]
  refine ⟨_, rfl, ?_⟩
  rw [sum]
  constructor
  · exact ⟨by dsimp only; omega, by dsimp only; omega⟩
  · exact ⟨by dsimp only; omega, by dsimp only; omega⟩
  · exact ⟨rfl, rfl⟩
  · exact ⟨rfl, rfl⟩
  · dsimp only
    omega
  · rw [clippable_iff, drawn]
    dsimp only
    omega

/-- The cases that put it on the lower edge: `lift` is how far above it stands at least. -/
theorem switched_lower (lift : Int) (y : Int → Int) (high : 100 ≤ height) (heightInt : height < 2 ^ 31)
    {m dx ddx : Int} {a b : Nat} (room : 0 < m ∧ m ≤ height / 2) (lifted : 0 ≤ lift ∧ lift ≤ height / 5)
    (moves : dx < 0) (speeds : ddx = 0 ∨ ddx = -1) (placed : ∀ r, 0 ≤ r → r < height / 2 → y r = height - r - lift)
    (drawn :
      Drawn height rand old ↔ 6 ≤ (b : Int) % (height / 2) + lift ∧
      height - (b : Int) % (height / 2) - lift + ((a : Int) % m + height / 5) < 2 ^ 31) :
    ∃ obs, (do
      let h ← randMod a m
      let r ← randMod b (height / 2)
      some { old with h := int (h + height / 5), y := y r, dx := dx, ddx := ddx }) = some obs ∧
      Switched height rand old obs := by
  obtain ⟨first, low, less⟩ := randMod_eq a room.1
  obtain ⟨second, low', less'⟩ := @randMod_eq b (height / 2) (by omega)
  have sum : int ((a : Int) % m + height / 5) = (a : Int) % m + height / 5 := int_eq ⟨by omega, by omega⟩
  rw [first, second]
  refine ⟨_, rfl, ?_⟩
  rw [sum, placed _ low' less']
  constructor
  · exact ⟨by dsimp only; omega, by dsimp only; omega⟩
  · exact ⟨by dsimp only; omega, by dsimp only; omega⟩
  · exact ⟨rfl, rfl⟩
  · exact ⟨rfl, rfl⟩
  · dsimp only
    omega
  · rw [clippable_iff, drawn]
    dsimp only
    omega

theorem switchObs_spec (screen : Screen width height) (y : InInt old.y) (h : InInt old.h) :
    ∃ obs, switchObs height rand old = some obs ∧ Switched height rand old obs := by
  obtain ⟨-, high, -, heightInt⟩ := screen
  have small : rand 0 % 7 < 7 := Nat.mod_lt _ (by decide)
  have quotient : ∀ n : Int, height.tdiv n = height / n := fun n => Int.tdiv_eq_ediv_of_nonneg (by omega)
  -- the cases 5 and 6, which stand a fifth of the screen above its lower edge
  have low : (Drawn height rand old ↔ height - (rand 2 : Int) % (height / 2) - height / 5 +
        ((rand 1 : Int) % (height / 2) + height / 5) < 2 ^ 31) → ∃ obs, (do
      let h ← randMod (rand 1) (height / 2)
      let y ← randMod (rand 2) (height / 2)
      some { old with
        h := int (h + height / 5), y := int (int (height - y) - height / 5), dx := randSpeed (rand 3), ddx := 0 }) =
        some obs ∧ Switched height rand old obs := by
    intro drawn
    have pos := (@randMod_eq (rand 2) (height / 2) (by omega)).2.1
    refine switched_lower (height / 5) (fun r => int (int (height - r) - height / 5)) high heightInt (by omega)
      ⟨?_, Int.le_refl _⟩ (randSpeed_neg _) (Or.inl rfl) ?_ ?_
    · omega
    · intro r least less
      rw [int_eq (x := height - r) ⟨by omega, by omega⟩, int_eq ⟨by omega, by omega⟩]
    · rw [drawn]
      omega
  unfold switchObs
  simp only [quotient]
  obtain kind | kind | kind | kind | kind | kind | kind : rand 0 % 7 = 0 ∨ rand 0 % 7 = 1 ∨ rand 0 % 7 = 2 ∨
    rand 0 % 7 = 3 ∨ rand 0 % 7 = 4 ∨ rand 0 % 7 = 5 ∨ rand 0 % 7 = 6 := by omega
  · rw [kind]
    exact ⟨old, rfl, y, h, ⟨rfl, rfl⟩, ⟨rfl, rfl⟩, by simp, by unfold Drawn; rw [kind]; exact Iff.rfl⟩
  · rw [kind]
    apply switched_upper high heightInt (by omega) (randSpeed_neg _) (Or.inl rfl)
    unfold Drawn
    rw [kind]
    exact Iff.rfl
  · rw [kind]
    apply switched_upper high heightInt (by omega) (randSpeed_neg _) (Or.inl rfl)
    unfold Drawn
    rw [kind]
    exact Iff.rfl
  · rw [kind]
    apply switched_upper high heightInt (by omega) (by omega) (Or.inr rfl)
    unfold Drawn
    rw [kind]
    exact Iff.rfl
  · rw [kind]
    refine switched_lower 0 (fun r => int (height - r)) high heightInt (by omega) (by omega) (by omega)
      (Or.inr rfl) ?_ ?_
    · intro r least less
      rw [int_eq ⟨by omega, by omega⟩]
      omega
    · unfold Drawn
      rw [kind, Int.add_zero, Int.sub_zero]
      exact Iff.rfl
  · rw [kind]
    exact low (by unfold Drawn; rw [kind]; exact Iff.rfl)
  · rw [kind]
    exact low (by unfold Drawn; rw [kind]; exact Iff.rfl)

theorem clip_frame : (clip height obs).x = obs.x ∧ (clip height obs).w = obs.w ∧ (clip height obs).y = obs.y ∧
    (clip height obs).ddx = obs.ddx ∧ (clip height obs).dy = obs.dy ∧ (clip height obs).ddy = obs.ddy := by
  unfold clip
  split <;> simp

theorem clip_inInt (h : InInt obs.h) : InInt (clip height obs).h := by
  unfold clip
  split
  · exact int_inInt _
  · exact h

/-- What a slot holds `age` updates after its obstacle appeared, or when it is free. -/
structure Slot (width height : Int) (age : Nat) (obs : Item) : Prop where
  y : InInt obs.y
  h : InInt obs.h
  still : obs.dy = 0 ∧ obs.ddy = 0
  ddx : obs.ddx = 0 ∨ obs.ddx = -1
  moving : obs.valid = true → Proper height obs ∧ 0 < obs.w ∧ obs.x + age ≤ width - 10 ∧ (age = 0 → obs.x = width - 10)

/-- **`init_obs` makes a proper obstacle for the outcomes `Drawn`, and for no others.** -/
theorem initObs_spec {age : Nat} (screen : Screen width height) (slot : Slot width height age old) (rand : Nat → Nat) :
    ∃ obs, initObs width height rand old = some obs ∧ (Proper height obs ↔ Drawn height rand old) ∧
      (Drawn height rand old → Slot width height 0 obs) := by
  have wide := screen.wide
  have widthInt := screen.widthInt
  have started : int (width - 10) = width - 10 := int_eq ⟨by omega, by omega⟩
  have thick : width.tdiv 200 = width / 200 := Int.tdiv_eq_ediv_of_nonneg (by omega)
  obtain ⟨obs, done, switched⟩ := @switchObs_spec width height rand
    { old with x := int (width - 10), dy := 0, ddy := 0, w := width.tdiv 200 } screen slot.y slot.h
  have drawn : Clippable height obs ↔ Drawn height rand old := switched.drawn
  have proper := (clip_proper screen switched.y switched.h).trans drawn
  obtain ⟨x, w, y, ddx, dy, ddy⟩ := @clip_frame height obs
  refine ⟨{ clip height obs with valid := true, count := true }, ?_, proper, ?_⟩
  · unfold initObs
    rw [done]
    rfl
  · intro outcome
    constructor
    · exact y ▸ switched.y
    · exact clip_inInt switched.h
    · exact ⟨dy.trans switched.still.1, ddy.trans switched.still.2⟩
    · rw [ddx]
      rcases switched.ddx with zero | one | same
      · exact Or.inl zero
      · exact Or.inr one
      · exact same ▸ slot.ddx
    · intro _
      have x : (clip height obs).x = width - 10 := (x.trans switched.place.1).trans started
      have w : (clip height obs).w = width / 200 := (w.trans switched.place.2).trans thick
      refine ⟨proper.mpr outcome, ?_, ?_, fun _ => x⟩
      · dsimp only
        omega
      · dsimp only
        omega

/-- The sums that `update` forms for a moving obstacle are `int`s. -/
def Updatable (obs : Item) : Prop := -2 ^ 31 ≤ obs.dx + obs.ddx ∧ -2 ^ 31 ≤ obs.x + (obs.dx + obs.ddx)

theorem Slot.update {age : Nat} (screen : Screen width height) (slot : Slot width height age obs)
    (valid : obs.valid = true) (inside : Updatable obs) :
    Slot width height (age + 1) obs.update ∧ obs.update.x < obs.x ∧ obs.update.valid = true := by
  obtain ⟨-, -, widthInt, heightInt⟩ := screen
  obtain ⟨dy, ddy⟩ := slot.still
  obtain ⟨⟨top, tall, bottom, left⟩, thick, place, -⟩ := slot.moving valid
  have ddx := slot.ddx
  have y := slot.y
  have speed : obs.update.dx = obs.dx + obs.ddx := int_eq ⟨inside.1, by omega⟩
  have moved : obs.update.x = obs.x + (obs.dx + obs.ddx) := by
    change int (obs.x + obs.update.dx) = _
    rw [speed]
    exact int_eq ⟨inside.2, by omega⟩
  have rest : obs.update.dy = 0 := by
    change int (obs.dy + obs.ddy) = 0
    rw [dy, ddy]
    exact int_eq ⟨by decide, by decide⟩
  have kept : obs.update.y = obs.y := by
    change int (obs.y + obs.update.dy) = _
    rw [rest, Int.add_zero]
    exact int_eq y
  refine ⟨?_, by omega, valid⟩
  constructor
  · exact kept ▸ y
  · exact slot.h
  · exact ⟨rest, ddy⟩
  · exact ddx
  · intro _
    refine ⟨⟨?_, tall, ?_, ?_⟩, thick, ?_, ?_⟩
    · omega
    · rw [kept]
      exact bottom
    · omega
    · omega
    · omega

theorem Slot.passed {age : Nat} (slot : Slot width height age obs) : Slot width height age (g.passed obs) where
  y := slot.y
  h := slot.h
  still := slot.still
  ddx := slot.ddx
  moving valid := slot.moving (Bool.and_eq_true_iff.mp valid).1

/-- An obstacle is given up when it has left the field on its left. -/
theorem Slot.passed_valid {age : Nat} (screen : Screen width height) (same : g.height = height)
    (slot : Slot width height age obs) (valid : obs.valid = true) : (g.passed obs).valid = true ↔ 10 ≤ obs.x := by
  obtain ⟨⟨top, tall, bottom, -⟩, -⟩ := slot.moving valid
  have heightInt := screen.heightInt
  have edge : int (obs.y + obs.h) = obs.y + obs.h := int_eq ⟨by omega, by omega⟩
  unfold Game.passed
  dsimp only
  rw [valid, Bool.true_and, decide_eq_true_iff, same]
  unfold InBound
  rw [edge]
  constructor
  · intro inside
    exact inside.1
  · intro right
    exact ⟨right, top, bottom⟩

/-! ### The calls -/

def Game.spawnsAt (g : Game) (i : Fin 10) : Prop :=
  InBound g.height g.player ∧ g.tick.add = true ∧ (g.obs i).valid = false ∧
  ∀ k < i, (g.obs k).valid = true ∧ ¬ Collide g.player (g.obs k)

/-- Nothing ends the game at the next call of `game_progress`. -/
def Game.Safe (g : Game) : Prop :=
  InBound g.height g.player ∧ ∀ i, (g.obs i).valid = true → ¬ Collide g.player (g.obs i)

theorem gameProgress_slot (done : gameProgress g rand = some g') (i : Fin 10) : g'.obs i = g.obs i ∨
    ((g.obs i).valid = true ∧ g'.obs i = g.passed (g.obs i)) ∨
    (g.spawnsAt i ∧ initObs g.width g.height rand (g.obs i) = some (g'.obs i)) := by
  unfold gameProgress at done
  split at done
  · rename_i inside
    have pass := progressLoop_pass done
    rcases pass.slot (List.nodup_finRange 10) i with same | ⟨valid, -, passed⟩ | ⟨free, -, init⟩
    · exact Or.inl same
    · exact Or.inr (Or.inl ⟨valid, passed⟩)
    · obtain ⟨adds, before⟩ := pass.first (List.pairwise_lt_finRange 10) free (initObs_flags init).1
      exact Or.inr (Or.inr ⟨⟨inside, adds, free, fun k less => before k (List.mem_finRange k) less⟩, init⟩)
  · obtain rfl := Option.some.inj done
    exact Or.inl rfl

theorem gameProgress_safe (done : gameProgress g rand = some g') (safe : g.Safe) (valid : (g.obs i).valid = true) :
    g'.obs i = g.passed (g.obs i) := by
  unfold gameProgress at done
  rw [if_pos safe.1] at done
  exact (progressLoop_pass done).clear (List.nodup_finRange 10) (fun k _ => safe.2 k) (List.mem_finRange i) valid

theorem gameProgress_screen (done : gameProgress g rand = some g') : g'.width = g.width ∧ g'.height = g.height := by
  unfold gameProgress at done
  split at done
  · obtain ⟨width, height, -⟩ := (progressLoop_pass done).screen
    exact ⟨width, height⟩
  · obtain rfl := Option.some.inj done
    exact ⟨rfl, rfl⟩

theorem progressLoop_returns {slots : List (Fin 10)} {add : Bool} (distinct : slots.Nodup)
    (init : ∀ i ∈ slots, ∃ obs, initObs g.width g.height rand (g.obs i) = some obs) :
    ∃ g', progressLoop rand slots add g = some g' := by
  induction slots generalizing add g with
  | nil => exact ⟨g, rfl⟩
  | cons i slots ih =>
    have ⟨outside, distinct⟩ := List.nodup_cons.mp distinct
    have later : ∀ j ∈ slots, j ≠ i := by
      intro j mem same
      exact outside (same ▸ mem)
    unfold progressLoop
    split
    · rename_i valid
      split
      · exact ⟨_, rfl⟩
      · apply ih distinct
        intro j mem
        rw [passObs_other valid (later j mem), passObs_eq valid]
        exact init j (List.mem_cons_of_mem _ mem)
    · split
      · obtain ⟨obs, done⟩ := init i List.mem_cons_self
        rw [done]
        apply ih distinct
        intro j mem
        rw [spawnObs_other (later j mem)]
        exact init j (List.mem_cons_of_mem _ mem)
      · exact ih distinct fun j mem => init j (List.mem_cons_of_mem _ mem)

/-! ### Runs -/

/-- The game, with the number of updates since an obstacle appeared in each slot. -/
structure Sight where
  game : Game
  age : Fin 10 → Nat

def Sight.next (r : Sight) : Call → Game → Sight
  | .update, g => ⟨g, fun i => r.age i + 1⟩
  | _, g => ⟨g, fun i => if (r.game.obs i).valid = false ∧ (g.obs i).valid = true then 0 else r.age i⟩

/-- The calls that meet `ok`, in any order, from the start of the program on. -/
def obsRuns (width height : Int) (ok : Game → Call → Prop) : Machine Sight Call where
  Init r := r = ⟨Game.start width height, fun _ => 0⟩
  Step r call r' := ok r.game call ∧ ∃ g, r.game.call call = some g ∧ r' = r.next call g

/-- Where the calls do what they are meant to do: `rand` gives an obstacle on the screen, and no sum overflows. -/
def Fine (g : Game) : Call → Prop
  | .progress rand => ∀ i, g.spawnsAt i → Drawn g.height rand (g.obs i)
  | .update => ∀ i, (g.obs i).valid = true → Updatable (g.obs i)
  | .restart | .key _ => True

structure Moving (width height : Int) (r : Sight) : Prop where
  sameWidth : r.game.width = width
  sameHeight : r.game.height = height
  slot : ∀ i, Slot width height (r.age i) (r.game.obs i)

variable {r r' : Sight} {call : Call} {age age' : Nat}

/-- A free slot has no obstacle whose updates count. -/
theorem Slot.free (slot : Slot width height age obs) (free : obs.valid = false) : Slot width height age' obs where
  y := slot.y
  h := slot.h
  still := slot.still
  ddx := slot.ddx
  moving valid := by
    rw [free] at valid
    cases valid

theorem moving_init (width height : Int) : Moving width height ⟨Game.start width height, fun _ => 0⟩ where
  sameWidth := rfl
  sameHeight := rfl
  slot i := by
    constructor
    · exact int_inInt 0
    · exact int_inInt 0
    · exact ⟨rfl, rfl⟩
    · exact Or.inl rfl
    · intro valid
      cases valid

theorem moving_update (screen : Screen width height) (moving : Moving width height r) (fine : Fine r.game .update) :
    Moving width height (r.next .update (screenUpdate r.game)) where
  sameWidth := moving.sameWidth
  sameHeight := moving.sameHeight
  slot i := by
    change Slot width height (r.age i + 1) (if (r.game.obs i).valid then (r.game.obs i).update else r.game.obs i)
    split
    · rename_i valid
      exact ((moving.slot i).update screen valid (fine i valid)).1
    · rename_i free
      exact (moving.slot i).free (eq_false_of_ne_true free)

theorem moving_progress (screen : Screen width height) (moving : Moving width height r)
    (fine : Fine r.game (.progress rand)) (done : gameProgress r.game rand = some g) :
    Moving width height (r.next (.progress rand) g) := by
  obtain ⟨sameWidth, sameHeight⟩ := gameProgress_screen done
  constructor
  · exact sameWidth.trans moving.sameWidth
  · exact sameHeight.trans moving.sameHeight
  · intro i
    change Slot width height (if (r.game.obs i).valid = false ∧ (g.obs i).valid = true then 0 else r.age i) (g.obs i)
    rcases gameProgress_slot done i with same | ⟨valid, passed⟩ | ⟨spawns, init⟩
    · rw [same, if_neg (by simp)]
      exact moving.slot i
    · rw [passed, if_neg (by simp [valid])]
      exact (moving.slot i).passed
    · obtain ⟨obs, init', -, slot⟩ := initObs_spec screen (moving.slot i) rand
      rw [moving.sameWidth, moving.sameHeight, init'] at init
      rw [← Option.some.inj init, if_pos ⟨spawns.2.2.1, (initObs_flags init').1⟩]
      exact slot (moving.sameHeight ▸ fine i spawns)

theorem moving_restart (moving : Moving width height r) : Moving width height (r.next .restart (restart r.game)) where
  sameWidth := moving.sameWidth
  sameHeight := moving.sameHeight
  slot i := by
    have slot := moving.slot i
    exact ⟨slot.y, slot.h, slot.still, slot.ddx, fun valid => by cases valid⟩

theorem moving_key (moving : Moving width height r) (key : Key) :
    Moving width height (r.next (.key key) (press r.game key)) := by
  have kept : (press r.game key).obs = r.game.obs := by cases key <;> rfl
  constructor
  · cases key <;> exact moving.sameWidth
  · cases key <;> exact moving.sameHeight
  · intro i
    change Slot width height (if _ ∧ ((press r.game key).obs i).valid = true then 0 else r.age i) _
    have none : ¬ ((r.game.obs i).valid = false ∧ (r.game.obs i).valid = true) := by simp
    dsimp only [Sight.next]
    rw [kept, if_neg none]
    exact moving.slot i

theorem reachable_moving (screen : Screen width height) (h : (obsRuns width height Fine).Reachable r) :
    Moving width height r := by
  apply h.induct (Moving width height)
  · intro r start
    rw [start]
    exact moving_init width height
  · intro r call r' moving ⟨fine, g, done, next⟩
    rw [next]
    cases call with
    | restart => exact Option.some.inj done ▸ moving_restart moving
    | progress rand => exact moving_progress screen moving fine done
    | update => exact Option.some.inj done ▸ moving_update screen moving fine
    | key key => exact Option.some.inj done ▸ moving_key moving key

/-- **The way of an obstacle.** Where `rand` gives a proper obstacle whenever one appears, it appears at the right edge,
every update moves it to the left, and `game_progress` gives its slot up once it has left the field. -/
theorem obstacles_move (screen : Screen width height) (h : (obsRuns width height Fine).Reachable r) (i : Fin 10)
    (valid : (r.game.obs i).valid = true) :
    Proper height (r.game.obs i) ∧ (r.game.obs i).x + r.age i ≤ width - 10 ∧
    (r.age i = 0 → (r.game.obs i).x = width - 10) ∧
    (Fine r.game .update → ((screenUpdate r.game).obs i).valid = true ∧
      ((screenUpdate r.game).obs i).x < (r.game.obs i).x) ∧
    (r.game.Safe → ∀ rand, ∃ g, gameProgress r.game rand = some g ∧
      ((g.obs i).valid = true ↔ 10 ≤ (r.game.obs i).x)) := by
  have moving := reachable_moving screen h
  have slot := moving.slot i
  obtain ⟨proper, -, place, start⟩ := slot.moving valid
  refine ⟨proper, place, start, ?_, ?_⟩
  · intro fine
    obtain ⟨-, left, still⟩ := slot.update screen valid (fine i valid)
    unfold screenUpdate
    dsimp only
    rw [if_pos valid]
    exact ⟨still, left⟩
  · intro safe rand
    have returns : ∃ g, progressLoop rand (List.finRange 10) r.game.tick.add r.game.tick = some g := by
      apply progressLoop_returns (List.nodup_finRange 10)
      intro j _
      obtain ⟨obs, init, -⟩ := initObs_spec screen (moving.slot j) rand
      rw [← moving.sameWidth, ← moving.sameHeight] at init
      exact ⟨obs, init⟩
    obtain ⟨g, done⟩ := returns
    have done : gameProgress r.game rand = some g := by
      unfold gameProgress
      rw [if_pos safe.1]
      exact done
    refine ⟨g, done, ?_⟩
    rw [gameProgress_safe done safe valid]
    exact slot.passed_valid screen moving.sameHeight valid

/-- A small screen after the restart, at the call number `n` of `game_progress`. -/
def waiting (n : Nat) : Game := { restart (Game.start 640 480) with counter := n }

theorem waiting_inBound (n : Nat) : InBound (waiting n).height (waiting n).player :=
  (by decide : InBound 480 (restart (Game.start 640 480)).player)

theorem waiting_tick {n : Nat} (before : n < 14) :
    (waiting n).tick = waiting (n + 1) ∧ (waiting n).tick.add = false := by
  have next : (waiting n).tick = waiting (n + 1) := by
    have small : (n + 1) % obsFlash = n + 1 := Nat.mod_eq_of_lt (by unfold obsFlash; omega)
    unfold Game.tick waiting
    rw [small]
  refine ⟨next, ?_⟩
  rw [next]
  exact decide_eq_false fun due => Nat.succ_ne_zero n due.1

variable {ok : Game → Call → Prop}

theorem waiting_reachable {n : Nat} (begins : ok (Game.start 640 480) .restart)
    (waits : ∀ n < 14, ok (waiting n) (.progress fun _ => 0)) (before : n ≤ 14) :
    ∃ age, (obsRuns 640 480 ok).Reachable ⟨waiting n, age⟩ := by
  induction n with
  | zero =>
    have start : (obsRuns 640 480 ok).Reachable ⟨Game.start 640 480, fun _ => 0⟩ := .init rfl
    exact ⟨_, start.step (l := .restart) ⟨begins, _, rfl, rfl⟩⟩
  | succ n ih =>
    obtain ⟨age, reached⟩ := ih (by omega)
    obtain ⟨next, none⟩ := waiting_tick before
    have done : gameProgress (waiting n) (fun _ => 0) = some (waiting (n + 1)) := by
      unfold gameProgress
      rw [if_pos (waiting_inBound n), none, next]
      exact progressLoop_idle fun i _ => rfl
    exact ⟨_, reached.step (l := .progress fun _ => 0) ⟨waits n before, _, done, rfl⟩⟩

/-- The first obstacle of a game is made in memory that is still zero. -/
theorem first_obstacle (ok : Game → Call → Prop) (begins : ok (Game.start 640 480) .restart)
    (waits : ∀ n < 14, ok (waiting n) (.progress fun _ => 0)) (appears : ok (waiting 14) (.progress rand))
    (init : initObs 640 480 rand .zero = some obs) : ∃ r, (obsRuns 640 480 ok).Reachable r ∧ r.game.obs 0 = obs := by
  obtain ⟨age, reached⟩ := waiting_reachable begins waits (le_refl 14)
  have done : gameProgress (waiting 14) rand = some ((waiting 14).tick.spawnObs 0 obs) := by
    unfold gameProgress
    rw [if_pos (waiting_inBound 14), List.finRange_succ]
    unfold progressLoop
    have free : ((waiting 14).tick.obs 0).valid = false := rfl
    have due : (waiting 14).tick.add = true := by decide
    rw [free, if_neg Bool.false_ne_true, if_pos due]
    change (initObs 640 480 rand .zero).bind _ = _
    rw [init]
    apply progressLoop_idle
    intro i mem
    obtain ⟨k, -, rfl⟩ := List.mem_map.mp mem
    rw [spawnObs_other (Fin.succ_ne_zero k)]
    rfl
  exact ⟨_, reached.step (l := .progress rand) ⟨appears, _, done, rfl⟩, spawnObs_same⟩

/-- `rand` gives a multiple of 7, or 4 and then a multiple of 240. -/
theorem obstacles_move_counterexample :
    (∃ r, (obsRuns 640 480 fun _ _ => True).Reachable r ∧ (r.game.obs 0).valid = true ∧ (r.game.obs 0).h = 0 ∧
      (r.game.obs 0).dx = 0 ∧ ¬ Proper 480 (r.game.obs 0)) ∧
    (∃ r, (obsRuns 640 480 fun _ _ => True).Reachable r ∧ (r.game.obs 0).valid = true ∧ (r.game.obs 0).y = 480 ∧
      (r.game.obs 0).h = -5 ∧ ¬ Proper 480 (r.game.obs 0)) := by
  constructor
  · have init : initObs 640 480 (fun _ => 0) .zero = some ⟨0, 0, 0, 0, 630, 0, 3, 0, true, true⟩ := by decide
    obtain ⟨r, reached, same⟩ := first_obstacle (fun _ _ => True) trivial (fun _ _ => trivial) trivial init
    refine ⟨r, reached, ?_⟩
    rw [same]
    decide
  · have init : initObs 640 480 (fun k => if k = 0 then 4 else 0) .zero =
        some ⟨-1, 0, -1, 0, 630, 480, 3, -5, true, true⟩ := by decide
    obtain ⟨r, reached, same⟩ := first_obstacle (fun _ _ => True) trivial (fun _ _ => trivial) trivial init
    refine ⟨r, reached, ?_⟩
    rw [same]
    decide

theorem obstacles_move_first : ∃ r, (obsRuns 640 480 Fine).Reachable r ∧ (r.game.obs 0).valid = true ∧
    Proper 480 (r.game.obs 0) := by
  have waits : ∀ n < 14, Fine (waiting n) (.progress fun _ => 0) := by
    intro n before i spawns
    cases (waiting_tick before).2.symm.trans spawns.2.1
  have appears : Fine (waiting 14) (.progress fun _ => 1) := by
    intro i _
    change (1 : Int) % (480 / 3) + ((1 : Int) % (480 / 2) + 480 / 5) < 2 ^ 31
    decide
  have init : initObs 640 480 (fun _ => 1) .zero = some ⟨0, 0, -4, 0, 630, 1, 3, 97, true, true⟩ := by decide
  obtain ⟨r, reached, same⟩ := first_obstacle Fine trivial waits appears init
  have valid : (r.game.obs 0).valid = true := by rw [same]
  exact ⟨r, reached, valid, (obstacles_move ⟨by decide, by decide, by decide, by decide⟩ reached 0 valid).1⟩

end OsLabs.Amgame

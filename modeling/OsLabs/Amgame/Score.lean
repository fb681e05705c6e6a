import Mathlib.Data.Fintype.Card
import Mathlib.Data.List.Perm.Subperm
import OsLabs.Amgame.Model
import OsLabs.Data.Machine

/-!
# The counts of the game

`num_obs` and `score` in every run of the calls, beside a history of the obstacles that
appeared and of those that were counted since the last restart.
-/

namespace OsLabs.Amgame
open Function

def Game.validObs (g : Game) : Finset (Fin 10) := Finset.univ.filter fun i => (g.obs i).valid = true

/-- The slots whose obstacle is counted between two states. -/
def countedIn (slots : List (Fin 10)) (g g' : Game) : List (Fin 10) :=
  slots.filter fun i => (g.obs i).valid && (g.obs i).count && !(g'.obs i).count

/-- The game, how many obstacles have appeared in each slot, and those that were counted: the obstacle `(i, k)` is
the one that appeared as number `k` in the slot `i`. -/
structure Run where
  game : Game
  gen : Fin 10 → Nat
  counted : List (Fin 10 × Nat)

def Run.spawned (r : Run) : List (Fin 10 × Nat) :=
  (List.finRange 10).flatMap fun i => (List.range (r.gen i)).map fun k => (i, k + 1)

/-- The history after a call that is no restart. -/
def Run.after (r : Run) (g : Game) : Run :=
  ⟨g, fun i => if (r.game.obs i).valid = false ∧ (g.obs i).valid = true then r.gen i + 1 else r.gen i,
    r.counted ++ (countedIn (List.finRange 10) r.game g).map fun i => (i, r.gen i)⟩

def Run.next (r : Run) : Call → Game → Run
  | .restart, g => ⟨g, fun _ => 0, []⟩
  | _, g => r.after g

/-- From a restart on, in whatever state the game was. -/
def scoreRuns : Machine Run Call where
  Init r := ∃ g, r = ⟨restart g, fun _ => 0, []⟩
  Step r call r' := ∃ g, r.game.call call = some g ∧ r' = r.next call g

variable {g g' : Game} {rand : Nat → Nat} {slots : List (Fin 10)} {add : Bool} {i : Fin 10} {obs : Item} {r r' : Run}
  {call : Call}

/-! ### `num_obs` -/

theorem mem_validObs : i ∈ g.validObs ↔ (g.obs i).valid = true := by
  simp [Game.validObs]

theorem validObs_congr (same : ∀ i, (g'.obs i).valid = (g.obs i).valid) : g'.validObs = g.validObs := by
  ext i
  rw [mem_validObs, mem_validObs, same]

theorem card_validObs_le (g : Game) : g.validObs.card ≤ 10 := card_finset_fin_le g.validObs

theorem int_add (x y : Int) : int (int x + y) = int (x + y) := Int.bmod_add_bmod

theorem passObs_validObs (valid : (g.obs i).valid = true) :
    (g.passObs i).validObs = if InBound g.height (g.obs i) then g.validObs else g.validObs.erase i := by
  ext j
  by_cases same : j = i
  · subst same
    rw [mem_validObs, passObs_same valid]
    split <;> simp_all [Game.passed, mem_validObs]
  · rw [mem_validObs, passObs_other valid same]
    split <;> simp [mem_validObs, same]

theorem spawnObs_validObs (appears : obs.valid = true) : (g.spawnObs i obs).validObs = insert i g.validObs := by
  ext j
  rw [mem_validObs, Finset.mem_insert, mem_validObs]
  by_cases same : j = i
  · subst same
    simp [spawnObs_same, appears]
  · simp [spawnObs_other same, same]

theorem Pass.numObs (pass : Pass rand slots add g g') (counts : g.numObs = g.validObs.card) :
    g'.numObs = g'.validObs.card ∧ g'.validObs.card ≤ g.validObs.card + if add then 1 else 0 := by
  induction pass with
  | done => exact ⟨counts, by simp⟩
  | hit => exact ⟨counts, Nat.le_add_right _ _⟩
  | @passed i slots add g g' valid clear rest ih =>
    have most := card_validObs_le g
    have mem : i ∈ g.validObs := mem_validObs.mpr valid
    have num : (g.passObs i).numObs = if InBound g.height (g.obs i) then g.numObs else int (g.numObs - 1) := by
      rw [passObs_eq valid]
    by_cases inside : InBound g.height (g.obs i)
    · rw [if_pos inside] at num
      rw [passObs_validObs valid, if_pos inside] at ih
      exact ih (num.trans counts)
    · have positive : 0 < g.validObs.card := Finset.card_pos.mpr ⟨i, mem⟩
      rw [if_neg inside, counts, int_small (by omega) (by omega)] at num
      rw [passObs_validObs valid, if_neg inside, Finset.card_erase_of_mem mem] at ih
      obtain ⟨number, bound⟩ := ih (by omega)
      exact ⟨number, by omega⟩
  | @spawned i slots g g' obs free init rest ih =>
    have most := card_validObs_le g
    have notMem : i ∉ g.validObs := by simp [mem_validObs, free]
    have num : (g.spawnObs i obs).numObs = int (g.numObs + 1) := rfl
    rw [counts, int_small (by omega) (by omega)] at num
    rw [spawnObs_validObs (initObs_flags init).1, Finset.card_insert_of_notMem notMem] at ih
    exact ih (by omega)
  | free free rest ih => exact ih counts

/-! ### `score` -/

theorem countedIn_congr (same : ∀ i ∈ slots, g'.obs i = g.obs i) (last : Game) :
    countedIn slots g' last = countedIn slots g last := by
  unfold countedIn
  apply List.filter_congr
  intro i mem
  rw [same i mem]

theorem countedIn_kept (kept : (g.obs i).valid = true → (g.obs i).count = true → (g'.obs i).count = true) :
    countedIn (i :: slots) g g' = countedIn slots g g' := by
  unfold countedIn
  rw [List.filter_cons_of_neg]
  intro counts
  simp only [Bool.and_eq_true, Bool.not_eq_true'] at counts
  rw [kept counts.1.1 counts.1.2] at counts
  cases counts.2

theorem countedIn_self (slots : List (Fin 10)) (same : ∀ i, (g'.obs i).count = (g.obs i).count) :
    countedIn slots g g' = [] := by
  unfold countedIn
  apply List.filter_eq_nil_iff.mpr
  intro i _
  simp only [same, Bool.and_assoc, Bool.and_not_self, Bool.and_false, Bool.false_eq_true, not_false_eq_true]

theorem Pass.score (pass : Pass rand slots add g g') (distinct : slots.Nodup) {c : Int} (start : g.score = int c) :
    g'.score = int (c + (countedIn slots g g').length) := by
  induction pass generalizing c with
  | done => simpa [countedIn] using start
  | @hit i slots add g valid hit =>
    have none : countedIn (i :: slots) g { g with fail := true } = [] := countedIn_self _ fun _ => rfl
    simpa [none] using start
  | @passed i slots add g g' valid clear rest ih =>
    have ⟨outside, distinct⟩ := List.nodup_cons.mp distinct
    have others : countedIn slots (g.passObs i) g' = countedIn slots g g' := by
      apply countedIn_congr
      intro j mem
      exact passObs_other valid fun same => outside (same ▸ mem)
    have own : (g'.obs i).count = ((g.obs i).count && !decide ((g.obs i).x < g.player.x)) := by
      rw [rest.other outside, passObs_same valid]
      rfl
    have score : (g.passObs i).score =
        if (g.obs i).x < g.player.x ∧ (g.obs i).count then int (g.score + 1) else g.score := by
      rw [passObs_eq valid]
    by_cases passes : (g.obs i).x < g.player.x ∧ (g.obs i).count = true
    · rw [if_pos passes, start, int_add] at score
      have counted : countedIn (i :: slots) g g' = i :: countedIn slots g g' := by
        unfold countedIn
        rw [List.filter_cons_of_pos]
        simp [valid, own, passes.1, passes.2]
      rw [ih distinct score, others, counted, List.length_cons]
      congr 1
      omega
    · rw [if_neg passes] at score
      have counted : countedIn (i :: slots) g g' = countedIn slots g g' := by
        apply countedIn_kept
        intro _ counts
        rw [own, counts]
        simpa [counts] using passes
      rw [ih distinct (score.trans start), others, counted]
  | @spawned i slots g g' obs free init rest ih =>
    have ⟨outside, distinct⟩ := List.nodup_cons.mp distinct
    have others : countedIn slots (g.spawnObs i obs) g' = countedIn slots g g' := by
      apply countedIn_congr
      intro j mem
      exact spawnObs_other fun same => outside (same ▸ mem)
    have counted : countedIn (i :: slots) g g' = countedIn slots g g' := countedIn_kept (by simp [free])
    rw [ih distinct start, others, counted]
  | @free i slots g g' free rest ih =>
    have counted : countedIn (i :: slots) g g' = countedIn slots g g' := countedIn_kept (by simp [free])
    rw [ih (List.nodup_cons.mp distinct).2 start, counted]

/-! ### The history -/

theorem mem_countedIn {slots : List (Fin 10)} : i ∈ countedIn slots g g' ↔ i ∈ slots ∧ (g.obs i).valid = true ∧
    (g.obs i).count = true ∧ (g'.obs i).count = false := by
  simp [countedIn, and_assoc]

/-- What was counted has appeared, once each, and an obstacle that can still be counted was not. -/
structure History (r : Run) : Prop where
  once : r.counted.Nodup
  appeared : ∀ p ∈ r.counted, 1 ≤ p.2 ∧ p.2 ≤ r.gen p.1
  alive : ∀ i, (r.game.obs i).valid = true → 1 ≤ r.gen i
  pending : ∀ i, (r.game.obs i).valid = true → (r.game.obs i).count = true → (i, r.gen i) ∉ r.counted

theorem gen_after : (r.after g).gen i =
    if (r.game.obs i).valid = false ∧ (g.obs i).valid = true then r.gen i + 1 else r.gen i := rfl

theorem gen_le_after : r.gen i ≤ (r.after g).gen i := by
  rw [gen_after]
  split <;> omega

theorem mem_after {p : Fin 10 × Nat} : p ∈ (r.after g).counted ↔ p ∈ r.counted ∨
    (r.game.obs p.1).valid = true ∧ (r.game.obs p.1).count = true ∧ (g.obs p.1).count = false ∧ p.2 = r.gen p.1 := by
  unfold Run.after
  rw [List.mem_append, List.mem_map]
  simp only [mem_countedIn, List.mem_finRange, true_and]
  constructor
  · rintro (before | ⟨i, counted, rfl⟩)
    · exact Or.inl before
    · exact Or.inr ⟨counted.1, counted.2.1, counted.2.2, rfl⟩
  · rintro (before | ⟨valid, count, none, last⟩)
    · exact Or.inl before
    · exact Or.inr ⟨p.1, ⟨valid, count, none⟩, Prod.ext rfl last.symm⟩

/-- The flag `count` of an obstacle is not set again. -/
theorem History.after (history : History r)
    (kept : ∀ i, (r.game.obs i).valid = true → (g.obs i).count = true → (r.game.obs i).count = true) :
    History (r.after g) := by
  constructor
  · apply List.nodup_append.mpr
    refine ⟨history.once, ?_, ?_⟩
    · apply List.Nodup.map (fun i j same => (Prod.mk.inj same).1)
      exact (List.nodup_finRange 10).filter _
    · intro p before q now same
      obtain ⟨i, counted, rfl⟩ := List.mem_map.mp now
      obtain ⟨-, valid, count, -⟩ := mem_countedIn.mp counted
      exact history.pending i valid count (same ▸ before)
  · intro p mem
    rcases mem_after.mp mem with before | ⟨valid, -, -, last⟩
    · obtain ⟨least, most⟩ := history.appeared p before
      exact ⟨least, most.trans gen_le_after⟩
    · rw [last]
      exact ⟨history.alive _ valid, gen_le_after⟩
  · intro i (valid : (g.obs i).valid = true)
    rw [gen_after]
    split
    · omega
    · rename_i before
      exact history.alive i (by simpa [valid] using before)
  · intro i (valid : (g.obs i).valid = true) (count : (g.obs i).count = true) mem
    rw [gen_after] at mem
    rcases mem_after.mp mem with before | ⟨-, -, none, -⟩
    · split at before
      · exact Nat.not_succ_le_self _ (history.appeared _ before).2
      · rename_i old
        have old : (r.game.obs i).valid = true := by simpa [valid] using old
        exact history.pending i old (kept i old count) before
    · dsimp only at none
      rw [count] at none
      cases none

theorem mem_spawned {p : Fin 10 × Nat} : p ∈ r.spawned ↔ 1 ≤ p.2 ∧ p.2 ≤ r.gen p.1 := by
  obtain ⟨i, k⟩ := p
  simp only [Run.spawned, List.mem_flatMap, List.mem_finRange, true_and, List.mem_map, List.mem_range]
  constructor
  · intro ⟨j, n, less, same⟩
    obtain ⟨rfl, rfl⟩ := Prod.mk.inj same
    exact ⟨by omega, by omega⟩
  · intro ⟨least, most⟩
    have back : k - 1 + 1 = k := by omega
    exact ⟨i, k - 1, by omega, by rw [back]⟩

theorem History.counted_le (history : History r) : r.counted.length ≤ r.spawned.length := by
  refine (List.subperm_of_subset history.once ?_).length_le
  intro p mem
  exact mem_spawned.mpr (history.appeared p mem)

/-! ### Runs -/

structure Inv (r : Run) : Prop where
  history : History r
  number : r.game.numObs = r.game.validObs.card
  most : r.game.validObs.card ≤ 8
  score : r.game.score = int r.counted.length

theorem inv_restart (g : Game) : Inv ⟨restart g, fun _ => 0, []⟩ := by
  have none : (restart g).validObs = ∅ := by
    ext i
    simp [mem_validObs, restart]
  constructor
  · constructor
    · exact List.nodup_nil
    · simp
    · intro i valid
      cases valid
    · simp
  · rw [none]
    rfl
  · change (restart g).validObs.card ≤ 8
    rw [none, Finset.card_empty]
    exact Nat.zero_le 8
  · exact (int_small (x := 0) (by omega) (by omega)).symm

/-- The calls that leave the flags of the obstacles alone. -/
theorem inv_flags (inv : Inv r) (valid : ∀ i, (g.obs i).valid = (r.game.obs i).valid)
    (count : ∀ i, (g.obs i).count = (r.game.obs i).count) (number : g.numObs = r.game.numObs)
    (score : g.score = r.game.score) : Inv (r.after g) := by
  have same : g.validObs = r.game.validObs := validObs_congr valid
  have none : (r.after g).counted = r.counted := by
    simp [Run.after, countedIn_self _ count]
  constructor
  · apply inv.history.after
    intro i _ counts
    rwa [← count]
  · change g.numObs = g.validObs.card
    rw [number, same, inv.number]
  · change g.validObs.card ≤ 8
    rw [same]
    exact inv.most
  · change g.score = _
    rw [none, score, inv.score]

theorem inv_progress (inv : Inv r) (done : gameProgress r.game rand = some g) : Inv (r.after g) := by
  unfold gameProgress at done
  split at done
  · have pass := progressLoop_pass done
    have distinct := List.nodup_finRange 10
    have same : r.game.tick.validObs = r.game.validObs := rfl
    obtain ⟨number, bound⟩ := pass.numObs inv.number
    rw [same] at bound
    have score := pass.score distinct inv.score
    have most := inv.most
    constructor
    · apply inv.history.after
      intro i valid counts
      rcases pass.slot distinct i with step | ⟨-, -, step⟩ | ⟨free, -, -⟩
      · rwa [step] at counts
      · rw [step] at counts
        exact (Bool.and_eq_true_iff.mp counts).1
      · have free : (r.game.obs i).valid = false := free
        rw [free] at valid
        cases valid
    · exact number
    · refine bound.trans ?_
      split
      · rename_i adds
        have few := (decide_eq_true_iff.mp adds).2
        have few : r.game.numObs < 8 := few
        have number := inv.number
        omega
      · omega
    · rw [Run.after, List.length_append, List.length_map, Int.natCast_add]
      exact score
  · obtain rfl := Option.some.inj done
    exact inv_flags inv (fun _ => rfl) (fun _ => rfl) rfl rfl

theorem screenUpdate_flags (g : Game) (i : Fin 10) : ((screenUpdate g).obs i).valid = (g.obs i).valid ∧
    ((screenUpdate g).obs i).count = (g.obs i).count := by
  unfold screenUpdate
  dsimp only
  split
  · exact ⟨rfl, rfl⟩
  · exact ⟨rfl, rfl⟩

theorem inv_step (inv : Inv r) (done : r.game.call call = some g) : Inv (r.next call g) := by
  cases call with
  | restart =>
    obtain rfl := Option.some.inj done
    exact inv_restart r.game
  | progress rand => exact inv_progress inv done
  | update =>
    obtain rfl := Option.some.inj done
    refine inv_flags (g := screenUpdate r.game) inv ?_ ?_ rfl rfl
    · intro i
      exact (screenUpdate_flags r.game i).1
    · intro i
      exact (screenUpdate_flags r.game i).2
  | key key =>
    obtain rfl := Option.some.inj done
    cases key with
    | down first => exact inv_flags inv (fun _ => rfl) (fun _ => rfl) rfl rfl
    | up => exact inv_flags inv (fun _ => rfl) (fun _ => rfl) rfl rfl

theorem reachable_inv (h : scoreRuns.Reachable r) : Inv r := by
  apply h.induct Inv
  · intro r ⟨g, start⟩
    rw [start]
    exact inv_restart g
  · intro r call r' inv ⟨g, done, next⟩
    rw [next]
    exact inv_step inv done

theorem int_le (n : Nat) : int n ≤ n := by
  unfold int
  rw [Int.bmod_def]
  omega

/-- **`num_obs` is the number of obstacles, never more than 8, and each obstacle that has appeared is counted in `score`
at most once.** -/
theorem counts_agree (h : scoreRuns.Reachable r) :
    r.game.numObs = r.game.validObs.card ∧ r.game.numObs ≤ 8 ∧ r.game.score ≤ r.spawned.length ∧
      r.game.score = int r.counted.length ∧ r.counted.Nodup ∧ r.counted ⊆ r.spawned := by
  have inv := reachable_inv h
  refine ⟨inv.number, ?_, ?_, inv.score, inv.history.once, ?_⟩
  · rw [inv.number]
    exact Int.ofNat_le.mpr inv.most
  · rw [inv.score]
    exact (int_le _).trans (Int.ofNat_le.mpr inv.history.counted_le)
  · intro p mem
    exact mem_spawned.mpr (inv.history.appeared p mem)

/-- An obstacle appears at the next call of `game_progress`. -/
def due : Game := { Game.start 640 480 with counter := 14 }

theorem counts_agree_spawned : ∃ r : Run, r.spawned = [(0, 1)] ∧ r.game.numObs = 1 ∧ r.game.score ≤ 1 := by
  have start : scoreRuns.Reachable ⟨restart due, fun _ => 0, []⟩ := .init ⟨_, rfl⟩
  have next := start.step (l := .progress fun _ => 1) ⟨_, rfl, rfl⟩
  exact ⟨_, by decide, by decide, (counts_agree next).2.2.1⟩

end OsLabs.Amgame

import Mathlib.Logic.Function.Basic
import OsLabs.Data.Machine

/-!
# Spinlocks

Any number of CPUs and locks, one access to shared memory at a time. `pushcli` and
`popcli` touch only what belongs to their CPU. `Assert` is empty in a build without
`DEBUG`, so the test in `spin_lock` and those in `popcli` are not part of the code.
-/

namespace OsLabs.Kmt.Spin
open Function

/-- `struct spinlock`; `none` is the owner -1. -/
structure Spinlock (Cpu : Type) where
  locked : Nat
  cpu : Option Cpu

/-- Where a call of `holding` stands: before its two reads, and before `popcli` with the answer. -/
inductive Holding where
  | readLocked
  | readCpu
  | pop (r : Bool)

/-- Where a CPU stands; `check` is the `holding` that `spin_unlock` asserts, `query` one called alone. -/
inductive Pc (Lock : Type) where
  | code
  | spin (lk : Lock)
  | setCpu (lk : Lock)
  | query (lk : Lock) (h : Holding)
  | check (lk : Lock) (h : Holding)
  | clearCpu (lk : Lock)
  | clearLocked (lk : Lock)
  | release
  | failed

/-- A CPU: its `cpuncli` and `intena`, its interrupt flag, the locks whose `spin_lock` it has finished and
whose `cpu` it has not yet cleared, and the flag as it was before its first lock was requested. -/
structure Core (Lock : Type) where
  cpuncli : Int
  intena : Bool
  intr : Bool
  pc : Pc Lock
  held : List Lock
  before : Bool

structure State (Cpu Lock : Type) where
  lock : Lock → Spinlock Cpu
  core : Cpu → Core Lock

inductive Label (Cpu Lock : Type) where
  | sti (c : Cpu) (flag : Bool)
  | lock (c : Cpu) (lk : Lock)
  | unlock (c : Cpu) (lk : Lock)
  | holding (c : Cpu) (lk : Lock)
  | answer (c : Cpu) (lk : Lock) (r : Bool)
  | release (c : Cpu)
  | run (c : Cpu)

variable {Cpu Lock : Type} [DecidableEq Cpu] [DecidableEq Lock]

def pushcli (k : Core Lock) : Core Lock :=
  { k with intr := false, intena := if k.cpuncli = 0 then k.intr else k.intena, cpuncli := k.cpuncli + 1 }

def popcli (k : Core Lock) : Core Lock :=
  { k with cpuncli := k.cpuncli - 1, intr := if k.cpuncli - 1 = 0 ∧ k.intena = true then true else k.intr }

/-- `pushcli` at the start of a call, with the flag noted where no lock is held. -/
def enter (k : Core Lock) (pc : Pc Lock) : Core Lock :=
  { pushcli k with pc := pc, before := if k.held = [] then k.intr else k.before }

def State.setCore (s : State Cpu Lock) (c : Cpu) (k : Core Lock) : State Cpu Lock :=
  { s with core := update s.core c k }

def State.setLock (s : State Cpu Lock) (lk : Lock) (f : Spinlock Cpu → Spinlock Cpu) : State Cpu Lock :=
  { s with lock := update s.lock lk (f (s.lock lk)) }

def Holding.read (l : Spinlock Cpu) (c : Cpu) : Holding → Holding
  | .readLocked => if l.locked ≠ 0 then .readCpu else .pop false
  | .readCpu => .pop (l.cpu = some c)
  | .pop r => .pop r

inductive Step : State Cpu Lock → Label Cpu Lock → State Cpu Lock → Prop
  | sti {s : State Cpu Lock} {c : Cpu} (flag : Bool) (outside : (s.core c).pc = .code) (free : (s.core c).held = []) :
      Step s (.sti c flag) (s.setCore c { s.core c with intr := flag })
  | lock {s : State Cpu Lock} {c : Cpu} {lk : Lock} (outside : (s.core c).pc = .code) (new : lk ∉ (s.core c).held) :
      Step s (.lock c lk) (s.setCore c (enter (s.core c) (.spin lk)))
  | xchg {s : State Cpu Lock} {c : Cpu} {lk : Lock} (here : (s.core c).pc = .spin lk) :
      Step s (.run c) ((s.setLock lk ({ · with locked := 1 })).setCore c
        { s.core c with pc := if (s.lock lk).locked ≠ 0 then .spin lk else .setCpu lk })
  | setCpu {s : State Cpu Lock} {c : Cpu} {lk : Lock} (here : (s.core c).pc = .setCpu lk) :
      Step s (.run c) ((s.setLock lk ({ · with cpu := some c })).setCore c
        { s.core c with pc := .code, held := lk :: (s.core c).held })
  | holding {s : State Cpu Lock} {c : Cpu} {lk : Lock} (outside : (s.core c).pc = .code) :
      Step s (.holding c lk) (s.setCore c (enter (s.core c) (.query lk .readLocked)))
  | query {s : State Cpu Lock} {c : Cpu} {lk : Lock} {h : Holding} (here : (s.core c).pc = .query lk h)
      (reading : ∀ r, h ≠ .pop r) :
      Step s (.run c) (s.setCore c { s.core c with pc := .query lk (h.read (s.lock lk) c) })
  | answer {s : State Cpu Lock} {c : Cpu} {lk : Lock} {r : Bool} (here : (s.core c).pc = .query lk (.pop r)) :
      Step s (.answer c lk r) (s.setCore c { popcli (s.core c) with pc := .code })
  | unlock {s : State Cpu Lock} {c : Cpu} {lk : Lock} (outside : (s.core c).pc = .code) (mine : lk ∈ (s.core c).held) :
      Step s (.unlock c lk) (s.setCore c (enter (s.core c) (.check lk .readLocked)))
  | check {s : State Cpu Lock} {c : Cpu} {lk : Lock} {h : Holding} (here : (s.core c).pc = .check lk h)
      (reading : ∀ r, h ≠ .pop r) :
      Step s (.run c) (s.setCore c { s.core c with pc := .check lk (h.read (s.lock lk) c) })
  | assert {s : State Cpu Lock} {c : Cpu} {lk : Lock} {r : Bool} (here : (s.core c).pc = .check lk (.pop r)) :
      Step s (.answer c lk r) (s.setCore c { popcli (s.core c) with pc := if r then .clearCpu lk else .failed })
  | clearCpu {s : State Cpu Lock} {c : Cpu} {lk : Lock} (here : (s.core c).pc = .clearCpu lk) :
      Step s (.run c) ((s.setLock lk ({ · with cpu := none })).setCore c
        { s.core c with pc := .clearLocked lk, held := (s.core c).held.erase lk })
  | clearLocked {s : State Cpu Lock} {c : Cpu} {lk : Lock} (here : (s.core c).pc = .clearLocked lk) :
      Step s (.run c) ((s.setLock lk ({ · with locked := 0 })).setCore c { s.core c with pc := .release })
  | release {s : State Cpu Lock} {c : Cpu} (here : (s.core c).pc = .release) :
      Step s (.release c) (s.setCore c { popcli (s.core c) with pc := .code })

/-- After the `spin_init` of every lock, with any interrupt flags. -/
def spinlocks (Cpu Lock : Type) [DecidableEq Cpu] [DecidableEq Lock] : Machine (State Cpu Lock) (Label Cpu Lock) where
  Init s := (∀ lk, s.lock lk = ⟨0, none⟩) ∧ ∀ c, (s.core c).cpuncli = 0 ∧ (s.core c).pc = .code ∧ (s.core c).held = []
  Step := Step

/-! ### One CPU -/

/-- The lock word belongs to the call from the successful `_atomic_xchg` on, and up to the store of 0. -/
def Pc.Owns (lk : Lock) : Pc Lock → Prop
  | .setCpu l | .clearLocked l => l = lk
  | _ => False

/-- The CPU is between its successful `_atomic_xchg` and its store of `locked = 0`. -/
def Core.Inside (k : Core Lock) (lk : Lock) : Prop := lk ∈ k.held ∨ k.pc.Owns lk

/-- How many `pushcli` the call itself has open. -/
def Pc.depth : Pc Lock → Int
  | .code | .clearCpu _ | .failed => 0
  | _ => 1

def Holding.Answers (holds : Prop) : Holding → Prop
  | .pop r => r = true ↔ holds
  | _ => True

def Pc.Fits (held : List Lock) : Pc Lock → Prop
  | .code | .release => True
  | .spin lk | .setCpu lk | .clearLocked lk => lk ∉ held
  | .query lk h => h.Answers (lk ∈ held)
  | .check lk h => lk ∈ held ∧ h.Answers (lk ∈ held)
  | .clearCpu lk => lk ∈ held
  | .failed => False

structure Core.Sound (k : Core Lock) : Prop where
  nodup : k.held.Nodup
  fits : k.pc.Fits k.held
  depth : k.cpuncli = k.held.length + k.pc.depth
  masked : 0 < k.cpuncli → k.intr = false ∧ k.intena = k.before

variable {k : Core Lock} {pc : Pc Lock} {lk : Lock} {s t : State Cpu Lock} {c : Cpu}

omit [DecidableEq Lock] in
theorem Core.Sound.enter (h : k.Sound) (outside : k.pc = .code) (fits : pc.Fits k.held) (deeper : pc.depth = 1) :
    (enter k pc).Sound := by
  have depth := h.depth
  rw [outside, show (Pc.code : Pc Lock).depth = 0 from rfl] at depth
  refine ⟨h.nodup, fits, ?_, ?_⟩
  · simp only [Spin.enter, pushcli, deeper]
    omega
  · intro _
    refine ⟨rfl, ?_⟩
    simp only [Spin.enter, pushcli]
    cases held : k.held with
    | nil =>
      rw [held] at depth
      rw [if_pos (by simpa using depth), if_pos rfl]
    | cons l ls =>
      rw [held, List.length_cons] at depth
      rw [if_neg (by omega), if_neg (by simp)]
      exact (h.masked (by omega)).2

omit [DecidableEq Lock] in
/-- `popcli` at the end of a call brings the flag back once nothing is held. -/
theorem Core.Sound.popcli (h : k.Sound) (deep : k.pc.depth = 1) (fits : pc.Fits k.held) (shallow : pc.depth = 0) :
    ({ popcli k with pc := pc } : Core Lock).Sound ∧ (k.held = [] → (popcli k).intr = k.before) := by
  have depth := h.depth
  rw [deep] at depth
  obtain ⟨off, saved⟩ := h.masked (by omega)
  refine ⟨⟨h.nodup, fits, ?_, ?_⟩, ?_⟩
  · simp only [Spin.popcli, shallow]
    omega
  · intro positive
    simp only [Spin.popcli] at positive ⊢
    rw [if_neg (fun zero => by omega)]
    exact ⟨off, saved⟩
  · intro none_held
    rw [none_held, List.length_nil] at depth
    simp only [Spin.popcli, off, saved]
    cases k.before <;> simp [depth]

/-! ### All CPUs -/

/-- Each CPU is sound, the lock words agree with an owner for each lock, and the `cpu` fields with what is held. -/
structure Inv (s : State Cpu Lock) : Prop where
  core : ∀ c, (s.core c).Sound
  owner : ∃ owner : Lock → Option Cpu, ∀ lk, ((s.lock lk).locked = if owner lk = none then 0 else 1) ∧
    ∀ c, owner lk = some c ↔ (s.core c).Inside lk
  cpu : ∀ lk c, (s.lock lk).cpu = some c ↔ lk ∈ (s.core c).held

namespace Inv

omit [DecidableEq Lock] in
theorem core_update (inv : Inv s) (sound : k.Sound) (d : Cpu) : (update s.core c k d).Sound := by
  rw [update_apply]
  split
  · exact sound
  · exact inv.core d

omit [DecidableEq Lock] in
theorem quiet (inv : Inv s) (sound : k.Sound) (held : k.held = (s.core c).held)
    (owns : ∀ lk, k.pc.Owns lk ↔ (s.core c).pc.Owns lk) : Inv (s.setCore c k) := by
  have inside (lk : Lock) (d : Cpu) : (update s.core c k d).Inside lk ↔ (s.core d).Inside lk := by
    rw [update_apply]
    split
    · rename_i same
      rw [same, Core.Inside, Core.Inside, held, owns]
    · rfl
  obtain ⟨owner, words⟩ := inv.owner
  refine ⟨inv.core_update sound, ⟨owner, fun lk => ⟨(words lk).1, fun d => ?_⟩⟩, fun lk d => ?_⟩
  · exact ((words lk).2 d).trans (inside lk d).symm
  · apply (inv.cpu lk d).trans
    simp only [State.setCore]
    rw [update_apply]
    split
    · rename_i same
      rw [same, held]
    · rfl

omit [DecidableEq Cpu] [DecidableEq Lock] in
theorem locked_of_inside (inv : Inv s) (inside : (s.core c).Inside lk) : (s.lock lk).locked = 1 := by
  obtain ⟨owner, words⟩ := inv.owner
  rw [(words lk).1, ((words lk).2 c).mpr inside, if_neg (by simp)]

omit [DecidableEq Cpu] [DecidableEq Lock] in
theorem exclusive {d : Cpu} (inv : Inv s) (inside : (s.core c).Inside lk) (inside' : (s.core d).Inside lk) : c = d := by
  obtain ⟨owner, words⟩ := inv.owner
  exact Option.some.inj ((((words lk).2 c).mpr inside).symm.trans (((words lk).2 d).mpr inside'))

omit [DecidableEq Lock] in
theorem read_answers {h : Holding} (inv : Inv s) (reading : ∀ r, h ≠ .pop r) :
    (h.read (s.lock lk) c).Answers (lk ∈ (s.core c).held) := by
  cases h with
  | readLocked =>
    rw [Holding.read]
    split
    · trivial
    · rename_i free
      refine iff_of_false (by decide) fun mine => free ?_
      rw [inv.locked_of_inside (.inl mine)]
      decide
  | readCpu => exact decide_eq_true_iff.trans (inv.cpu lk c)
  | pop r => exact absurd rfl (reading r)

theorem change {f : Spinlock Cpu → Spinlock Cpu} (inv : Inv s) (sound : k.Sound)
    (alone : ∀ d, d ≠ c → ¬(s.core d).Inside lk)
    (elsewhere : ∀ l, l ≠ lk → ((l ∈ k.held ↔ l ∈ (s.core c).held) ∧ (k.pc.Owns l ↔ (s.core c).pc.Owns l)))
    (word : (k.Inside lk ∧ (f (s.lock lk)).locked = 1) ∨ (¬k.Inside lk ∧ (f (s.lock lk)).locked = 0))
    (field : (f (s.lock lk)).cpu = if lk ∈ k.held then some c else none) :
    Inv ((s.setLock lk f).setCore c k) := by
  obtain ⟨owner, words⟩ := inv.owner
  obtain ⟨o, locked, mine⟩ : ∃ o : Option Cpu, (f (s.lock lk)).locked = (if o = none then 0 else 1) ∧
      ∀ d, o = some d ↔ (update s.core c k d).Inside lk := by
    rcases word with ⟨inside, one⟩ | ⟨outside, zero⟩
    · refine ⟨some c, one, fun d => ?_⟩
      rw [update_apply]
      split
      · rename_i same
        exact iff_of_true (congrArg some same.symm) inside
      · rename_i other
        exact iff_of_false (fun same => other (Option.some.inj same).symm) (alone d other)
    · refine ⟨none, zero, fun d => ?_⟩
      rw [update_apply]
      split
      · exact iff_of_false (by simp) outside
      · rename_i other
        exact iff_of_false (by simp) (alone d other)
  refine ⟨inv.core_update sound, ⟨update owner lk o, fun l => ?_⟩, fun l d => ?_⟩
  · simp only [State.setCore, State.setLock]
    by_cases same : l = lk
    · subst same
      rw [update_self, update_self]
      exact ⟨locked, mine⟩
    · rw [update_of_ne same, update_of_ne same]
      refine ⟨(words l).1, fun d => ((words l).2 d).trans ?_⟩
      rw [update_apply]
      split
      · rename_i here
        rw [here, Core.Inside, Core.Inside, (elsewhere l same).1, (elsewhere l same).2]
      · rfl
  · simp only [State.setCore, State.setLock]
    by_cases same : l = lk
    · subst same
      rw [update_self, field]
      by_cases here : d = c
      · rw [here, update_self]
        split <;> simp [*]
      · rw [update_of_ne here]
        refine iff_of_false ?_ fun held => alone d here (.inl held)
        split
        · exact fun same => here (Option.some.inj same).symm
        · simp
    · rw [update_of_ne same]
      apply (inv.cpu l d).trans
      rw [update_apply]
      split
      · rename_i here
        rw [here, (elsewhere l same).1]
      · rfl

omit [DecidableEq Cpu] [DecidableEq Lock] in
theorem cpu_none_of_free (inv : Inv s) (free : ∀ c, ¬(s.core c).Inside lk) : (s.lock lk).cpu = none := by
  apply Option.eq_none_iff_forall_ne_some.mpr
  intro c same
  exact free c (.inl ((inv.cpu lk c).mp same))

theorem xchg (inv : Inv s) (here : (s.core c).pc = .spin lk) :
    Inv ((s.setLock lk ({ · with locked := 1 })).setCore c
      { s.core c with pc := if (s.lock lk).locked ≠ 0 then .spin lk else .setCpu lk }) := by
  obtain ⟨nodup, fits, depth, masked⟩ := inv.core c
  rw [here] at fits depth
  obtain ⟨owner, words⟩ := inv.owner
  by_cases taken : (s.lock lk).locked ≠ 0
  · have same : s.setLock lk ({ · with locked := 1 }) = s := by
      have word : (s.lock lk).locked = 1 := by
        have word := (words lk).1
        split at word
        · exact absurd word taken
        · exact word
      have unchanged : ({ s.lock lk with locked := 1 } : Spinlock Cpu) = s.lock lk := by rw [← word]
      simp only [State.setLock, unchanged, update_eq_self]
    rw [same, if_pos taken]
    exact inv.quiet ⟨nodup, fits, depth, masked⟩ rfl (by simp [here])
  · have free (d : Cpu) : ¬(s.core d).Inside lk := by
      intro inside
      rw [inv.locked_of_inside inside] at taken
      exact taken Nat.one_ne_zero
    rw [if_neg taken]
    refine inv.change ⟨nodup, fits, depth, masked⟩ (fun d _ => free d) ?_ (.inl ⟨.inr rfl, rfl⟩) ?_
    · intro l other
      simp [here, Pc.Owns, Ne.symm other]
    · rw [if_neg fits]
      exact inv.cpu_none_of_free free

theorem setCpu (inv : Inv s) (here : (s.core c).pc = .setCpu lk) :
    Inv ((s.setLock lk ({ · with cpu := some c })).setCore c
      { s.core c with pc := .code, held := lk :: (s.core c).held }) := by
  obtain ⟨nodup, fits, depth, masked⟩ := inv.core c
  rw [here] at fits depth
  have inside : (s.core c).Inside lk := .inr (by rw [here]; rfl)
  refine inv.change ⟨List.nodup_cons.mpr ⟨fits, nodup⟩, trivial, ?_, masked⟩ ?_ ?_
    (.inl ⟨.inl List.mem_cons_self, ?_⟩) ?_
  · simpa [Pc.depth] using depth
  · exact fun d other inside' => other (inv.exclusive inside' inside)
  · intro l other
    simp [here, Pc.Owns, other, Ne.symm other]
  · exact inv.locked_of_inside inside
  · rw [if_pos List.mem_cons_self]

theorem clearCpu (inv : Inv s) (here : (s.core c).pc = .clearCpu lk) :
    Inv ((s.setLock lk ({ · with cpu := none })).setCore c
      { s.core c with pc := .clearLocked lk, held := (s.core c).held.erase lk }) := by
  obtain ⟨nodup, fits, depth, masked⟩ := inv.core c
  rw [here] at fits depth
  have inside : (s.core c).Inside lk := .inl fits
  have gone : lk ∉ (s.core c).held.erase lk := nodup.not_mem_erase
  refine inv.change ⟨nodup.erase lk, gone, ?_, masked⟩ ?_ ?_ (.inl ⟨.inr rfl, ?_⟩) ?_
  · have size := List.length_erase_of_mem fits
    have positive := List.length_pos_of_mem fits
    simp only [Pc.depth] at depth ⊢
    omega
  · exact fun d other inside' => other (inv.exclusive inside' inside)
  · intro l other
    simp [here, Pc.Owns, Ne.symm other, List.mem_erase_of_ne other]
  · exact inv.locked_of_inside inside
  · rw [if_neg gone]

theorem clearLocked (inv : Inv s) (here : (s.core c).pc = .clearLocked lk) :
    Inv ((s.setLock lk ({ · with locked := 0 })).setCore c { s.core c with pc := .release }) := by
  obtain ⟨nodup, fits, depth, masked⟩ := inv.core c
  rw [here] at fits depth
  have inside : (s.core c).Inside lk := .inr (by rw [here]; rfl)
  refine inv.change ⟨nodup, trivial, depth, masked⟩ ?_ ?_ (.inr ⟨?_, rfl⟩) ?_
  · exact fun d other inside' => other (inv.exclusive inside' inside)
  · intro l other
    simp [here, Pc.Owns, Ne.symm other]
  · rintro (held | owns)
    · exact fits held
    · exact owns
  · rw [if_neg fits]
    apply Option.eq_none_iff_forall_ne_some.mpr
    intro d same
    have held := (inv.cpu lk d).mp same
    obtain rfl := inv.exclusive (.inl held) inside
    exact fits held

end Inv

theorem inv_step {label : Label Cpu Lock} (inv : Inv s) (step : Step s label t) : Inv t := by
  cases step with
  | @sti c flag outside free =>
    obtain ⟨nodup, fits, depth, masked⟩ := inv.core c
    refine inv.quiet ⟨nodup, fits, depth, fun positive => ?_⟩ rfl fun _ => Iff.rfl
    simp only [outside, free, Pc.depth, List.length_nil] at depth positive
    omega
  | @lock c lk outside new =>
    exact inv.quiet ((inv.core c).enter outside new rfl) rfl (by simp [outside, enter, Pc.Owns])
  | xchg here => exact inv.xchg here
  | setCpu here => exact inv.setCpu here
  | @holding c lk outside =>
    exact inv.quiet ((inv.core c).enter outside trivial rfl) rfl (by simp [outside, enter, Pc.Owns])
  | @query c lk h here reading =>
    obtain ⟨nodup, fits, depth, masked⟩ := inv.core c
    rw [here] at depth
    exact inv.quiet ⟨nodup, inv.read_answers reading, depth, masked⟩ rfl (by simp [here, Pc.Owns])
  | @answer c lk r here =>
    have sound := ((inv.core c).popcli (by rw [here]; rfl) (show Pc.Fits _ .code from trivial) rfl).1
    exact inv.quiet sound rfl (by simp [here, Pc.Owns])
  | @unlock c lk outside mine =>
    exact inv.quiet ((inv.core c).enter outside ⟨mine, trivial⟩ rfl) rfl (by simp [outside, enter, Pc.Owns])
  | @check c lk h here reading =>
    obtain ⟨nodup, fits, depth, masked⟩ := inv.core c
    rw [here] at fits depth
    exact inv.quiet ⟨nodup, ⟨fits.1, inv.read_answers reading⟩, depth, masked⟩ rfl (by simp [here, Pc.Owns])
  | @assert c lk r here =>
    have fits := (inv.core c).fits
    rw [here] at fits
    obtain rfl : r = true := fits.2.mpr fits.1
    have sound := ((inv.core c).popcli (by rw [here]; rfl) (show Pc.Fits _ (.clearCpu lk) from fits.1) rfl).1
    exact inv.quiet sound rfl (by simp [here, Pc.Owns])
  | clearCpu here => exact inv.clearCpu here
  | clearLocked here => exact inv.clearLocked here
  | @release c here =>
    have sound := ((inv.core c).popcli (by rw [here]; rfl) (show Pc.Fits _ .code from trivial) rfl).1
    exact inv.quiet sound rfl (by simp [here, Pc.Owns])

theorem inv_reachable (h : (spinlocks Cpu Lock).Reachable s) : Inv s := by
  refine h.induct Inv ?_ fun s label t inv step => inv_step inv step
  rintro s ⟨locks, cores⟩
  refine ⟨fun c => ?_, ⟨fun _ => none, fun lk => ⟨by rw [locks]; rfl, fun c => ?_⟩⟩, fun lk c => ?_⟩
  · obtain ⟨zero, code, free⟩ := cores c
    refine ⟨by simp [free], by rw [code]; trivial, by simp [zero, code, free, Pc.depth], by simp [zero]⟩
  · obtain ⟨-, code, free⟩ := cores c
    simp [Core.Inside, code, free, Pc.Owns]
  · simp [locks, (cores c).2.2]

structure Exclusive (s : State Cpu Lock) : Prop where
  one : ∀ lk c d, (s.core c).Inside lk → (s.core d).Inside lk → c = d
  masked : ∀ c lk, (s.core c).Inside lk → (s.core c).intr = false
  asserted : ∀ c, (s.core c).pc ≠ .failed
  answers : ∀ c lk r t, Step s (.answer c lk r) t → (r = true ↔ lk ∈ (s.core c).held)
  restores : ∀ c t, Step s (.release c) t → (t.core c).held = [] → (t.core c).intr = (s.core c).before

theorem reachable_spinExclusive (h : (spinlocks Cpu Lock).Reachable s) : Exclusive s := by
  have inv := inv_reachable h
  refine ⟨fun lk c d => inv.exclusive, ?_, ?_, ?_, ?_⟩
  · intro c lk inside
    obtain ⟨-, fits, depth, masked⟩ := inv.core c
    refine (masked ?_).1
    rcases inside with held | owns
    · have := List.length_pos_of_mem held
      cases pc : (s.core c).pc <;> simp only [pc, Pc.depth] at depth <;> omega
    · cases pc : (s.core c).pc <;> simp only [pc, Pc.depth, Pc.Owns] at depth owns <;> omega
  · intro c failed
    have fits := (inv.core c).fits
    rw [failed] at fits
    exact fits
  · intro c lk r t step
    have fits := (inv.core c).fits
    cases step with
    | answer here =>
      rw [here] at fits
      exact fits
    | assert here =>
      rw [here] at fits
      exact fits.2
  · intro c t step free
    cases step with
    | release here =>
      simp only [State.setCore, update_self] at free ⊢
      exact ((inv.core c).popcli (by rw [here]; rfl) (show Pc.Fits _ .code from trivial) rfl).2 free

/-- One of two CPUs has taken the lock. -/
theorem reachable_spinExclusive_sample : ∃ s : State Bool Unit, (s.core true).held = [()] ∧ Exclusive s := by
  have start : (spinlocks Bool Unit).Reachable ⟨fun _ => ⟨0, none⟩, fun _ => ⟨0, false, true, .code, [], false⟩⟩ :=
    .init ⟨fun _ => rfl, fun _ => ⟨rfl, rfl, rfl⟩⟩
  have requested := start.step (.lock (c := true) rfl (List.not_mem_nil (a := ())))
  have won := requested.step (.xchg (c := true) rfl)
  have taken := won.step (.setCpu (c := true) rfl)
  exact ⟨_, rfl, reachable_spinExclusive taken⟩

end OsLabs.Kmt.Spin

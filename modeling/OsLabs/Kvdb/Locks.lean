import OsLabs.Data.Contract
import OsLabs.Data.Machine
import OsLabs.Data.Memory

/-!
# The locks of a handle

Every operation takes the mutex of the handle and locks its file, and returns early
when a library call fails. What happens between taking the locks and giving them back
is left out; it does not touch them.
-/

namespace OsLabs.Kvdb.Locks

inductive Lock where
  | sh
  | ex

/-- A lock that is taken as `k`, or still taken because giving it back failed. -/
inductive Hold (K : Type) where
  | free
  | held (k : K)
  | stuck (k : K)

def Hold.jam {K : Type} : Hold K → Hold K
  | .held k => .stuck k
  | other => other

/-- The library calls that the code tests; `none` is `LOCK_UN`. -/
inductive Lib where
  | access
  | fopen
  | mutexInit
  | mutexLock
  | mutexUnlock
  | mutexDestroy
  | flock (operation : Option Lock)

/-- An open file and the lock that it has. -/
structure OpenFile (N : Type) where
  name : N
  flock : Hold Lock

/-- `db->file`; it is wild before it is assigned and after `fclose`. -/
inductive FilePtr (N : Type) where
  | null
  | wild
  | opened (file : OpenFile N)

/-- The handle, where the mutex is `none` while it is not initialized, the files that it opened and lost, and the
library calls so far, the latest first, each with whether it failed. -/
structure World (N : Type) where
  file : FilePtr N
  mutex : Option (Hold Unit)
  lost : List (OpenFile N)
  log : List (Lib × Bool)

/-- Why a call does not return: it waits for a lock that is never given back, or uses a file or a mutex that is not
there. -/
inductive Stop where
  | blocked
  | undefined
  deriving DecidableEq

def FilePtr.files {N : Type} : FilePtr N → List (OpenFile N)
  | .opened file => [file]
  | _ => []

def World.files {N : Type} (s : World N) : List (OpenFile N) := s.file.files ++ s.lost

/-! ### Library calls -/

section

variable {N : Type} [DecidableEq N] (fails : Nat → Bool) (s : World N)

/-- Whether the next library call fails. -/
def World.call (lib : Lib) : World N × Bool :=
  ({ s with log := (lib, fails s.log.length) :: s.log }, fails s.log.length)

def World.setFile (file : FilePtr N) : World N := { s with file := file, lost := s.file.files ++ s.lost }

def access : Except Stop (World N × Bool) := .ok (s.call fails .access)

def fopen (filename : N) : Except Stop (World N × Bool) :=
  let (s, failed) := s.call fails .fopen
  .ok (s.setFile (if failed then .null else .opened ⟨filename, .free⟩), failed)

/-- `tmpf = fopen(filename, "w+")`, which is closed at once. -/
def fopenTmp : Except Stop (World N × Bool) := .ok (s.call fails .fopen)

def fclose : Except Stop (World N) :=
  match s.file with
  | .opened _ => .ok { s with file := .wild }
  | _ => .error .undefined

def mutexInit : Except Stop (World N × Bool) :=
  let (s, failed) := s.call fails .mutexInit
  if failed then .ok (s, true)
  else match s.mutex with
    | none => .ok ({ s with mutex := some .free }, false)
    | some _ => .error .undefined

def mutexLock : Except Stop (World N × Bool) :=
  let (s, failed) := s.call fails .mutexLock
  if failed then .ok (s, true)
  else match s.mutex with
    | none => .error .undefined
    | some .free => .ok ({ s with mutex := some (.held ()) }, false)
    | some _ => .error .blocked

def mutexUnlock : Except Stop (World N × Bool) :=
  let (s, failed) := s.call fails .mutexUnlock
  if failed then .ok ({ s with mutex := s.mutex.map .jam }, true)
  else match s.mutex with
    | none | some .free => .error .undefined
    | some _ => .ok ({ s with mutex := some .free }, false)

def mutexDestroy : Except Stop (World N × Bool) :=
  let (s, failed) := s.call fails .mutexDestroy
  if failed then .ok (s, true)
  else match s.mutex with
    | some .free => .ok ({ s with mutex := none }, false)
    | _ => .error .undefined

/-- Another open file on the same name stands in the way of the lock. -/
def conflicts (name : N) (lock : Lock) (file : OpenFile N) : Bool :=
  decide (file.name = name) && match file.flock, lock with
    | .free, _ => false
    | .held .sh, .sh | .stuck .sh, .sh => false
    | _, _ => true

/-- `flock(fileno(db->file), operation)`; it converts a lock that the file has. -/
def flock (operation : Option Lock) : Except Stop (World N × Bool) :=
  match s.file with
  | .opened file =>
    let (s, failed) := s.call fails (.flock operation)
    match operation with
    | none => .ok ({ s with file := .opened { file with flock := if failed then file.flock.jam else .free } }, failed)
    | some lock =>
      if failed then .ok (s, true)
      else if s.lost.any (conflicts file.name lock) then .error .blocked
      else .ok ({ s with file := .opened { file with flock := .held lock } }, false)
  | _ => .error .undefined

def checkJournal : Except Stop (World N × Bool) := .ok (s, false)

/-! ### Operations -/

/-- `if (lib != 0) return bad;` and the rest. -/
def orReturn {α : Type} (bad : α) (lib : Except Stop (World N × Bool)) (rest : World N → Except Stop (World N × α)) :
    Except Stop (World N × α) := do
  let (s, failed) ← lib
  if failed then .ok (s, bad) else rest s

def kvdbOpen (filename : N) : Except Stop (World N × Int) := do
  let (s, missing) ← access fails s
  if missing then
    orReturn (-1) (fopenTmp fails s) fun s =>
    orReturn (-1) (fopen fails s filename) fun s =>
    orReturn (-1) (mutexInit fails s) fun s =>
    .ok (s, 0)
  else
    orReturn (-1) (access fails s) fun s =>
    orReturn (-1) (access fails s) fun s =>
    orReturn (-1) (fopen fails s filename) fun s =>
    orReturn (-1) (mutexInit fails s) fun s =>
    orReturn (-1) (mutexLock fails s) fun s =>
    orReturn (-1) (flock fails s (some .ex)) fun s =>
    orReturn (-1) (checkJournal s) fun s =>
    orReturn (-1) (flock fails s none) fun s =>
    orReturn (-1) (mutexUnlock fails s) fun s =>
    .ok (s, 0)

def kvdbClose : Except Stop (World N × Int) :=
  orReturn (-1) (mutexLock fails s) fun s =>
  orReturn (-1) (flock fails s (some .ex)) fun s =>
  orReturn (-1) (checkJournal s) fun s =>
  orReturn (-1) (flock fails s none) fun s =>
  orReturn (-1) (mutexUnlock fails s) fun s =>
  orReturn (-1) (mutexDestroy fails s) fun s =>
  match s.file with
  | .null => .ok (s, -1)
  | _ => do .ok (← fclose s, 0)

def kvdbPut : Except Stop (World N × Int) :=
  match s.file with
  | .null => .ok (s, -1)
  | _ =>
    orReturn (-1) (mutexLock fails s) fun s =>
    orReturn (-1) (flock fails s (some .ex)) fun s =>
    orReturn (-1) (checkJournal s) fun s =>
    orReturn (-1) (flock fails s none) fun s =>
    orReturn (-1) (mutexUnlock fails s) fun s =>
    .ok (s, 0)

/-- `found` is the value that the search finds. -/
def kvdbGet (found : Option (List Byte)) : Except Stop (World N × Option (List Byte)) :=
  match s.file with
  | .null => .ok (s, none)
  | _ =>
    orReturn none (mutexLock fails s) fun s =>
    orReturn none (flock fails s (some .ex)) fun s =>
    orReturn none (checkJournal s) fun s =>
    orReturn none (flock fails s none) fun s =>
    orReturn none (flock fails s (some .sh)) fun s =>
    orReturn none (flock fails s none) fun s =>
    orReturn none (mutexUnlock fails s) fun s =>
    .ok (s, found)

end

/-! ### Runs -/

inductive Call (N : Type) where
  | open (filename : N)
  | close
  | put
  | get (found : Option (List Byte))

variable {N : Type} [DecidableEq N]

def Call.perform (fails : Nat → Bool) (s : World N) : Call N → Except Stop (World N)
  | .open filename => (kvdbOpen fails s filename).map Prod.fst
  | close => (kvdbClose fails s).map Prod.fst
  | put => (kvdbPut fails s).map Prod.fst
  | get found => (kvdbGet fails s found).map Prod.fst

/-- A handle that is not opened yet, under any pattern of failures. -/
def handle (N : Type) [DecidableEq N] (fails : Nat → Bool) : Machine (World N) (Call N) where
  Init s := s.mutex = none ∧ s.files = [] ∧ s.log = []
  Step s call t := call.perform fails s = .ok t

/-- The mutex and the files are not locked, unless unlocking them failed; and if that did not happen, no call blocks. -/
structure Paired (fails : Nat → Bool) (s : World N) : Prop where
  mutex : s.mutex ≠ some (.held ())
  flock : ∀ file ∈ s.files, ∀ lock, file.flock ≠ .held lock
  unblocked : s.mutex ≠ some (.stuck ()) → (∀ file ∈ s.files, ∀ lock, file.flock ≠ .stuck lock) →
    ∀ call : Call N, call.perform fails s ≠ .error .blocked

def Flocked (s : World N) : Prop := ∀ operation, (Lib.flock operation, true) ∉ s.log

variable {fails : Nat → Bool} {s : World N} {m : Option (Hold Unit)} {l : Hold Lock} {α : Type} {bad : α}
  {P Q : World N → Prop} {R : Stop → Prop} {filename : N}

/-! ### Contracts of the library calls -/

/-- No `flock` has failed, the mutex is `m`, and only the open file has a lock, which is `l`. -/
structure Stage (m : Option (Hold Unit)) (l : Hold Lock) (s : World N) : Prop where
  log : Flocked s
  mutex : s.mutex = m
  file : ∀ file ∈ s.file.files, file.flock = l
  lost : ∀ file ∈ s.lost, file.flock = .free

/-- A `flock` has failed, and the mutex is locked since. -/
structure Jammed (s : World N) : Prop where
  log : ¬Flocked s
  mutex : s.mutex = some (.held ())

/-- What a library call promises when it succeeds, `P`, and when it fails, `Q`. -/
def Tested (P Q : World N → Prop) (R : Stop → Prop) : Except Stop (World N × Bool) → Prop :=
  Ensures (fun r => if r.2 then Q r.1 else P r.1) R

def Returns {α : Type} (Q : World N → Prop) (R : Stop → Prop) : Except Stop (World N × α) → Prop :=
  Ensures (fun r => Q r.1) R

omit [DecidableEq N] in
theorem Tested.orReturn {T : World N → Prop} {lib : Except Stop (World N × Bool)}
    {rest : World N → Except Stop (World N × α)} (h : Tested P Q R lib) (failure : ∀ s, Q s → T s)
    (next : ∀ s, P s → Returns T R (rest s)) : Returns T R (orReturn bad lib rest) := by
  apply Ensures.bind h
  intro r tested
  obtain ⟨s, failed⟩ := r
  cases failed with
  | true => exact failure s tested
  | false => exact next s tested

omit [DecidableEq N] in
theorem Stage.call (h : Stage m l s) (fails : Nat → Bool) (lib : Lib) (other : ∀ operation, lib ≠ .flock operation) :
    Stage m l (s.call fails lib).1 := by
  refine ⟨fun operation mem => ?_, h.mutex, h.file, h.lost⟩
  rcases List.mem_cons.mp mem with new | old
  · exact other operation (Prod.mk.inj new).1.symm
  · exact h.log operation old

omit [DecidableEq N] in
/-- A call that promises the same in both cases. -/
theorem tested_ok {r : World N × Bool} (h : P r.1) : Tested P P R (.ok r) := by
  show if _ then _ else _
  split <;> exact h

omit [DecidableEq N] in
theorem access_tested (h : P (s.call fails .access).1) : Tested P P R (access fails s) := tested_ok h

omit [DecidableEq N] in
theorem fopenTmp_tested (h : P (s.call fails .fopen).1) : Tested P P R (fopenTmp fails s) := tested_ok h

omit [DecidableEq N] in
theorem Stage.fopen_tested (h : Stage m .free s) :
    Tested (Stage m .free) (Stage m .free) R (fopen fails s filename) := by
  have called := h.call fails .fopen nofun
  have lost : ∀ file ∈ s.file.files ++ s.lost, file.flock = .free := by
    intro file mem
    rcases List.mem_append.mp mem with here | before
    · exact h.file file here
    · exact h.lost file before
  have set (file : FilePtr N) (free : ∀ f ∈ file.files, f.flock = .free) :
      Stage m .free ((s.call fails .fopen).1.setFile file) := ⟨called.log, h.mutex, free, lost⟩
  refine tested_ok (set _ ?_)
  split
  · exact nofun
  · simp [FilePtr.files]

omit [DecidableEq N] in
theorem Stage.mutexInit_tested (h : Stage m l s) (undefined : R .undefined) :
    Tested (Stage (some .free) l) (Stage m l) R (mutexInit fails s) := by
  have called := h.call fails .mutexInit nofun
  unfold mutexInit
  simp only
  split
  · exact called
  · split
    · exact ⟨called.log, rfl, h.file, h.lost⟩
    · exact undefined

/-- Only a mutex that could not be unlocked makes a call wait. -/
def Waits (m : Option (Hold Unit)) (e : Stop) : Prop := e = .blocked → m = some (.stuck ())

omit [DecidableEq N] in
theorem Stage.mutexLock_tested (h : Stage m l s) (loose : m ≠ some (.held ())) :
    Tested (Stage (some (.held ())) l) (Stage m l) (Waits m) (mutexLock fails s) := by
  have called := h.call fails .mutexLock nofun
  unfold mutexLock
  simp only
  split
  · exact called
  · split
    · exact nofun
    · exact ⟨called.log, rfl, h.file, h.lost⟩
    · rename_i hold taken mutex
      intro _
      rw [← h.mutex, show s.mutex = _ from mutex]
      cases hold with
      | free => exact absurd rfl taken
      | held k => exact absurd (h.mutex.symm.trans mutex) loose
      | stuck k => rfl

omit [DecidableEq N] in
theorem Stage.mutexUnlock_tested (h : Stage (some (.held ())) l s) (undefined : R .undefined) :
    Tested (Stage (some .free) l) (Stage (some (.stuck ())) l) R (mutexUnlock fails s) := by
  have called := h.call fails .mutexUnlock nofun
  unfold mutexUnlock
  simp only
  split
  · exact ⟨called.log, by rw [called.mutex]; rfl, h.file, h.lost⟩
  · split
    · exact undefined
    · exact undefined
    · exact ⟨called.log, rfl, h.file, h.lost⟩

omit [DecidableEq N] in
theorem Stage.mutexDestroy_tested (h : Stage m l s) (undefined : R .undefined) :
    Tested (Stage none l) (Stage m l) R (mutexDestroy fails s) := by
  have called := h.call fails .mutexDestroy nofun
  unfold mutexDestroy
  simp only
  split
  · exact called
  · split
    · exact ⟨called.log, rfl, h.file, h.lost⟩
    · exact undefined

/-- A `flock` finds no other lock in its way, and when it fails the mutex stays locked. -/
theorem Stage.flock_tested (h : Stage (some (.held ())) l s) (operation : Option Lock) (undefined : R .undefined) :
    Tested (Stage (some (.held ())) (operation.elim .free .held)) Jammed R (flock fails s operation) := by
  have called : ¬fails s.log.length → Flocked (s.call fails (.flock operation)).1 := by
    intro done operation' mem
    rcases List.mem_cons.mp mem with new | old
    · exact done (Prod.mk.inj new).2.symm
    · exact h.log operation' old
  have jammed : fails s.log.length → ¬Flocked (s.call fails (.flock operation)).1 := fun failed flocked =>
    flocked operation (by rw [← failed]; exact List.mem_cons_self)
  unfold flock
  cases opened : s.file with
  | null => exact undefined
  | wild => exact undefined
  | opened file =>
    cases failed : fails s.log.length with
    | true =>
      cases operation with
      | none =>
        simp only [World.call, failed] at jammed ⊢
        exact ⟨jammed trivial, h.mutex⟩
      | some lock =>
        simp only [World.call, failed] at jammed ⊢
        exact ⟨jammed trivial, h.mutex⟩
    | false =>
      cases operation with
      | none =>
        simp only [World.call, failed] at called ⊢
        exact ⟨called nofun, h.mutex, by simp [FilePtr.files], h.lost⟩
      | some lock =>
        have clear : s.lost.any (conflicts file.name lock) = false := by
          rw [List.any_eq_false]
          intro other mem
          simp [conflicts, h.lost other mem]
        simp only [World.call, failed, clear] at called ⊢
        exact ⟨called nofun, h.mutex, by simp [FilePtr.files], h.lost⟩

/-! ### Contracts of the operations -/

/-- No `flock` has failed and nothing is locked, unless the mutex could not be unlocked. -/
def Quiet (s : World N) : Prop := ∃ m, m ≠ some (.held ()) ∧ Stage m .free s

def Left (s : World N) : Prop := Quiet s ∨ Jammed s

omit [DecidableEq N] in
theorem Stage.left (h : Stage m .free s) (loose : m ≠ some (.held ())) : Left s := .inl ⟨m, loose, h⟩

section

variable {rest : World N → Except Stop (World N × α)} (h : Stage m .free s) (loose : m ≠ some (.held ()))

include h loose in
/-- The part of every operation up to the first `LOCK_UN`. -/
theorem Stage.exclusive (next : ∀ s, Stage (some (.held ())) .free s → Returns Left (Waits m) (rest s)) :
    Returns Left (Waits m) (orReturn bad (mutexLock fails s) fun s => orReturn bad (flock fails s (some .ex)) fun s =>
      orReturn bad (checkJournal s) fun s => orReturn bad (flock fails s none) rest) := by
  apply (h.mutexLock_tested loose).orReturn (fun s h => h.left loose)
  intro s h
  apply (h.flock_tested (some .ex) nofun).orReturn (fun s => .inr)
  intro s h
  exact (h.flock_tested none nofun).orReturn (fun s => .inr) next

omit [DecidableEq N] in
theorem Stage.unlock (h : Stage (some (.held ())) .free s)
    (next : ∀ s, Stage (some .free) .free s → Returns Left (Waits m) (rest s)) :
    Returns Left (Waits m) (orReturn bad (mutexUnlock fails s) rest) :=
  (h.mutexUnlock_tested nofun).orReturn (fun _ h => h.left nofun) next

include h loose

theorem Stage.kvdbOpen_returns : Returns Left (Waits m) (kvdbOpen fails s filename) := by
  have first : Ensures (fun r => Stage m .free r.1) (Waits m) (access fails s) :=
    show Stage m .free (s.call fails .access).1 from h.call _ _ nofun
  apply first.bind
  intro r h
  obtain ⟨s, missing⟩ := r
  show Returns _ _ (if missing then _ else _)
  split
  · apply (fopenTmp_tested (h.call _ _ nofun)).orReturn (fun s h => h.left loose)
    intro s h
    apply h.fopen_tested.orReturn (fun s h => h.left loose)
    intro s h
    exact (h.mutexInit_tested nofun).orReturn (fun s h => h.left loose) fun s h => h.left nofun
  · apply (access_tested (h.call _ _ nofun)).orReturn (fun s h => h.left loose)
    intro s h
    apply (access_tested (h.call _ _ nofun)).orReturn (fun s h => h.left loose)
    intro s h
    apply h.fopen_tested.orReturn (fun s h => h.left loose)
    intro s h
    apply (h.mutexInit_tested nofun).orReturn (fun s h => h.left loose)
    intro s h
    have loose' : some Hold.free ≠ some (Hold.held ()) := nofun
    refine (h.exclusive loose' fun s h => ?_).mono (fun _ => id) fun e waits blocked => ?_
    · exact h.unlock fun s h => h.left nofun
    · cases waits blocked

theorem Stage.kvdbClose_returns : Returns Left (Waits m) (kvdbClose fails s) := by
  refine h.exclusive loose fun s h => h.unlock fun s h => ?_
  apply (h.mutexDestroy_tested nofun).orReturn (fun s h => h.left nofun)
  intro s h
  cases file : s.file with
  | null => exact h.left nofun
  | wild =>
    simp only [fclose, file]
    exact nofun
  | opened f =>
    simp only [fclose, file]
    exact Stage.left (m := none) ⟨h.log, h.mutex, nofun, h.lost⟩ nofun

theorem Stage.kvdbPut_returns : Returns Left (Waits m) (kvdbPut fails s) := by
  unfold kvdbPut
  split
  · exact h.left loose
  · exact h.exclusive loose fun s h => h.unlock fun s h => h.left nofun

theorem Stage.kvdbGet_returns {found : Option (List Byte)} : Returns Left (Waits m) (kvdbGet fails s found) := by
  unfold kvdbGet
  split
  · exact h.left loose
  · apply h.exclusive loose
    intro s h
    apply (h.flock_tested (some .sh) nofun).orReturn (fun s => .inr)
    intro s h
    apply (h.flock_tested none nofun).orReturn (fun s => .inr)
    intro s h
    exact h.unlock fun s h => h.left nofun

end

omit [DecidableEq N] in
theorem Returns.state {x : Except Stop (World N × α)} (h : Returns Q R x) : Ensures Q R (x.map Prod.fst) := by
  cases x with
  | ok r => exact h
  | error e => exact h

theorem Stage.perform_returns (h : Stage m .free s) (loose : m ≠ some (.held ())) (call : Call N) :
    Ensures Left (Waits m) (call.perform fails s) := by
  cases call with
  | «open» filename => exact (h.kvdbOpen_returns loose).state
  | close => exact (h.kvdbClose_returns loose).state
  | put => exact (h.kvdbPut_returns loose).state
  | get found => exact (h.kvdbGet_returns loose).state

/-! ### A handle that is jammed -/

omit [DecidableEq N] in
theorem Jammed.call (h : Jammed s) (fails : Nat → Bool) (lib : Lib) : Jammed (s.call fails lib).1 :=
  ⟨fun flocked => h.log fun operation mem => flocked operation (List.mem_cons_of_mem _ mem), h.mutex⟩

omit [DecidableEq N] in
theorem Jammed.mutexLock_tested (h : Jammed s) :
    Tested (fun _ => False) Jammed (fun _ => True) (mutexLock fails s) := by
  unfold mutexLock
  cases failed : fails s.log.length with
  | true =>
    have called := h.call fails .mutexLock
    simp only [World.call, failed] at called ⊢
    exact called
  | false =>
    simp only [World.call, failed, h.mutex]
    trivial

omit [DecidableEq N] in
theorem Jammed.fopen_tested (h : Jammed s) : Tested Jammed Jammed R (fopen fails s filename) := by
  have called := h.call fails .fopen
  exact tested_ok ⟨called.log, h.mutex⟩

omit [DecidableEq N] in
/-- A mutex is not initialized twice. -/
theorem Jammed.mutexInit_tested (h : Jammed s) :
    Tested (fun _ => False) Jammed (fun _ => True) (mutexInit fails s) := by
  unfold mutexInit
  cases failed : fails s.log.length with
  | true =>
    have called := h.call fails .mutexInit
    simp only [World.call, failed] at called ⊢
    exact called
  | false =>
    simp only [World.call, failed, h.mutex]
    trivial

theorem Jammed.perform_returns (h : Jammed s) (call : Call N) :
    Ensures Left (fun _ => True) (call.perform fails s) := by
  have locked {α : Type} {bad : α} {rest : World N → Except Stop (World N × α)} :
      Returns Left (fun _ => True) (orReturn bad (mutexLock fails s) rest) :=
    h.mutexLock_tested.orReturn (fun s => .inr) fun _ => False.elim
  cases call with
  | «open» filename =>
    have first : Ensures (fun r => Jammed r.1) (fun _ => True) (access fails s) :=
      show Jammed (s.call fails .access).1 from h.call _ _
    refine Returns.state (first.bind fun r h => ?_)
    obtain ⟨s, missing⟩ := r
    show Returns _ _ (if missing then _ else _)
    split
    · apply (fopenTmp_tested (h.call _ _)).orReturn (fun s => .inr)
      intro s h
      apply h.fopen_tested.orReturn (fun s => .inr)
      intro s h
      exact h.mutexInit_tested.orReturn (fun s => .inr) fun _ => False.elim
    · apply (access_tested (h.call _ _)).orReturn (fun s => .inr)
      intro s h
      apply (access_tested (h.call _ _)).orReturn (fun s => .inr)
      intro s h
      apply h.fopen_tested.orReturn (fun s => .inr)
      intro s h
      exact h.mutexInit_tested.orReturn (fun s => .inr) fun _ => False.elim
  | close => exact Returns.state locked
  | put =>
    apply Returns.state
    unfold kvdbPut
    split
    · exact .inr h
    · exact locked
  | get found =>
    apply Returns.state
    unfold kvdbGet
    split
    · exact .inr h
    · exact locked

/-! ### Runs of a handle -/

theorem reachable_left (run : (handle N fails).Reachable s) : Left s := by
  refine run.induct Left (fun s init => ?_) fun s call t left step => ?_
  · obtain ⟨mutex, files, log⟩ := init
    have free : ∀ file ∈ s.files, file.flock = .free := by simp [files]
    refine .inl ⟨none, nofun, by simp [Flocked, log], mutex, fun file mem => ?_, fun file mem => ?_⟩
    · exact free file (List.mem_append_left _ mem)
    · exact free file (List.mem_append_right _ mem)
  · rcases left with ⟨m, loose, stage⟩ | jammed
    · exact (stage.perform_returns loose call).value step
    · exact (jammed.perform_returns call).value step

/-- Every lock is given back exactly as long as no `flock` fails. -/
theorem reachable_paired_iff (run : (handle N fails).Reachable s) : Paired fails s ↔ Flocked s := by
  rcases reachable_left run with ⟨m, loose, stage⟩ | jammed
  · refine ⟨fun _ => stage.log, fun _ => ?_⟩
    have free : ∀ file ∈ s.files, file.flock = .free := by
      intro file mem
      rcases List.mem_append.mp mem with here | before
      · exact stage.file file here
      · exact stage.lost file before
    constructor
    case mutex =>
      rw [stage.mutex]
      exact loose
    case flock =>
      intro file mem lock held
      rw [free file mem] at held
      cases held
    case unblocked =>
      intro unstuck _ call blocked
      rw [stage.mutex] at unstuck
      exact unstuck ((stage.perform_returns loose call).failure blocked rfl)
  · exact ⟨fun paired => absurd jammed.mutex paired.mutex, fun flocked => absurd flocked jammed.log⟩

def unopened : World Unit := ⟨.wild, none, [], []⟩

/-- The library calls of `kvdb_open` for a file that exists, the latest first. -/
def openCalls : List Lib :=
    [.mutexUnlock, .flock none, .flock (some .ex), .mutexLock, .mutexInit, .fopen, .access, .access, .access]

def afterOpen : World Unit := ⟨.opened ⟨(), .free⟩, some .free, [], openCalls.map (·, false)⟩

theorem reachable_afterOpen (succeeds : ∀ n < 9, fails n = false) : (handle Unit fails).Reachable afterOpen := by
  refine .step (s := unopened) (l := .open ()) (.init (by simp [handle, unopened, World.files, FilePtr.files])) ?_
  show Call.perform fails unopened (.open ()) = .ok afterOpen
  simp [Call.perform, kvdbOpen, unopened, afterOpen, openCalls, access, fopen, mutexInit, mutexLock, mutexUnlock, flock,
    checkJournal, orReturn, World.call, World.setFile, FilePtr.files, bind, Except.bind, Except.map, succeeds]

theorem reachable_paired_iff_sample : Paired (fun _ => false) afterOpen ↔ Flocked afterOpen :=
  reachable_paired_iff (reachable_afterOpen fun _ _ => rfl)

/-- A put whose `LOCK_EX` fails leaves the mutex locked, and the next put waits for it. -/
theorem paired_counterexample :
    ∃ s, Call.put.perform (· == 10) afterOpen = .ok s ∧ (handle Unit (· == 10)).Reachable s ∧
    ¬Paired (· == 10) s ∧ Call.put.perform (· == 10) s = .error .blocked := by
  refine ⟨_, rfl, .step (l := .put) (reachable_afterOpen (by decide)) rfl, fun paired => paired.mutex rfl, rfl⟩

end OsLabs.Kvdb.Locks

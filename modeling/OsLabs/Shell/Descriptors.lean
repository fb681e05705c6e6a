import OsLabs.Data.Machine
import OsLabs.Shell.Commands

/-!
# What a command leaves open

Some branches of the commands print their text and do not close what they opened. The
set of open descriptors is as before a command exactly when it takes none of them.
-/

namespace OsLabs.Shell
open Util Vfs

variable {W S I E : Type} {D : FileSystems W S I E} {s : State W S I} {l : Locals} {junk : Junk} {file : Path} {i : Nat}

/-! ### The condition -/

/-- What `vfs_open` finds at a path: nothing, a directory, or something else. -/
def look (D : FileSystems W S I E) (s : State W S I) (file : Path) : Option Bool :=
  match resolve D.toDriver s file with
  | .ok found => found.map D.isDir
  | .error _ => none

/-- What `cd` finds at the paths that it opens, one after the other. -/
def visited (look : Path → Option Bool) : Path → List Move → List (Option Bool)
  | _, [] => []
  | pwd, .stay :: moves => visited look pwd moves
  | pwd, .up :: moves => visited look (parent pwd) moves
  | pwd, .enter name :: moves =>
    match look (pwd ++ name) with
    | none => [none]
    | some true => some true :: visited look (pwd ++ name ++ [slash]) moves
    | some false => some false :: visited look pwd moves

def cdStart (pwd arg1 : Path) : Path := if arg1.head? = some slash then [slash] else pwd

def target (pwd arg : Path) : Path := if arg.head? = some slash then arg else pwd ++ arg

/-- No branch is taken that leaves a descriptor open. -/
def Closes (D : FileSystems W S I E) (s : State W S I) (l : Locals) : Command → Prop
  | .cd (some arg1) => some false ∉ visited (look D s) (cdStart l.pwd arg1) (cdMoves arg1)
  | .ls arg1 => look D s (target l.pwd (arg1.getD l.pwd)) ≠ some false
  | .rmdir (some arg1) => look D s (target l.pwd arg1) ≠ some false
  | .rm (some arg1) => look D s (target l.pwd arg1) ≠ some true
  | .cat (some arg1) => look D s (target l.pwd arg1) ≠ some true
  | .touch (some arg1) => look D s (target l.pwd arg1) = none
  | .link (some _) => False
  | _ => True

/-! ### Calls -/

/-- The assertion of `vfs_open` fails only if that holds. -/
def Trips (full : Prop) (e : Stop E) : Prop := e = .vfs .assertion → full

theorem Trips.mono {full full' : Prop} (weaker : full → full') {e : Stop E} (h : Trips full e) : Trips full' e :=
  fun failed => weaker (h failed)

theorem call_ensures {α : Type} {P : α → Prop} {full full' : Prop} {x : Except (Vfs.Stop E) α} (weaker : full → full')
    (h : Ensures P (OnAssertion full) x) : Ensures P (Trips full') (call x) := by
  cases x with
  | ok a => exact h
  | error e => exact fun failed => weaker (h (Stop.vfs.inj failed))

/-- A call without the assertion. -/
theorem call_safe {α : Type} {P : α → Prop} {full : Prop} {x : Except (Vfs.Stop E) α}
    (h : Ensures P (OnAssertion False) x) : Ensures P (Trips full) (call x) :=
  call_ensures False.elim h

theorem store_ensures {full : Prop} (l : Locals) (bytes : List Byte) :
    Ensures (fun _ => True) (Trips full) (l.store bytes : Except (Stop E) _) := by
  unfold Locals.store
  split
  · trivial
  · exact nofun

theorem say_ensures {full : Prop} (l : Locals) (text : List Byte) :
    Ensures (fun _ => True) (Trips full) (l.say text : Except (Stop E) _) := store_ensures l _

theorem fits_ensures {full : Prop} (path : Path) :
    Ensures (fun fitting => fitting = path) (Trips full) (fits path : Except (Stop E) _) := by
  unfold fits
  split
  · rfl
  · exact nofun

theorem modify_ensures {full : Prop} (pwd arg : Path) :
    Ensures (fun file => file = target pwd arg) (Trips full) (modify pwd arg : Except (Stop E) _) := by
  unfold modify target
  split
  · rfl
  · exact fits_ensures _

/-- A text at the end of a command. -/
theorem saying {full : Prop} {Q : After W S I → Prop} (l : Locals) (text : List Byte) (post : ∀ l', Q (s, l')) :
    Ensures Q (Trips full) (do .ok (s, ← l.say text) : Except (Stop E) (After W S I)) :=
  (say_ensures l text).bind fun l' _ => post l'

/-! ### Commands -/

/-- A command that returns leaves the open descriptors as they were if and only if the condition holds, and where it
holds the assertion fails only with all descriptors in use. -/
def Fair (s : State W S I) (cond : Prop) : Except (Stop E) (After W S I) → Prop :=
  Ensures (fun r => opened r.1.flides = opened s.flides ↔ cond) (Trips (getFreeFlides s.flides = none ∨ ¬cond))

variable {cond : Prop} {x : Except (Stop E) (After W S I)}

theorem Fair.of_keeps (holds : cond) (h : Ensures (fun r => opened r.1.flides = opened s.flides) (Trips False) x) :
    Fair s cond x :=
  h.mono (fun _ same => iff_of_true same holds) fun _ => Trips.mono False.elim

/-- The branches that leave the descriptor open. -/
theorem Fair.of_left {cur : File I} (fails : ¬cond) (slot : getFreeFlides s.flides = some i) (l : Locals)
    (text : List Byte) :
    Fair s cond (do .ok (s.put i (some cur), ← l.say text) : Except (Stop E) (After W S I)) :=
  saying l text fun _ => iff_of_false (put_ne slot) fails

theorem fair_say (l : Locals) (text : List Byte) :
    Fair s True (do .ok (s, ← l.say text) : Except (Stop E) (After W S I)) :=
  .of_keeps trivial (saying l text fun _ => rfl)

theorem fileAt_eq (slot : getFreeFlides s.flides = some i) (f : File I) :
    (fileAt (s.put i (some f)) i : Except (Stop E) _) = .ok f := by
  obtain ⟨inside, -⟩ := Vector.getElem?_eq_some_iff.mp (getFreeFlides_some slot)
  have entry : (s.put i (some f)).flides[i]? = some (some f) := by simp [State.put, inside]
  have small : (0 : Int) ≤ i ∧ (i : Int) < noFile := ⟨Int.natCast_nonneg i, by omega⟩
  simp only [fileAt, State.file, if_pos small, Int.toNat_natCast, entry]
  rfl

theorem fileAt_put {full : Prop} (slot : getFreeFlides s.flides = some i) (f : File I) :
    Ensures (fun file => file = f) (Trips full) (fileAt (s.put i (some f)) i : Except (Stop E) _) := by
  rw [fileAt_eq slot]
  exact rfl

theorem look_eq {found : Option I} (resolved : resolve D.toDriver s file = .ok found) :
    look D s file = found.map D.isDir := by
  simp only [look, resolved]

/-- A command that opens a file: nothing is there, or it goes on with the descriptor. -/
theorem fair_withFile {k : State W S I → Int → File I → Except (Stop E) (After W S I)} (l : Locals)
    (absent : look D s file = none → cond)
    (found : ∀ cur i, s.lockVfs = false → look D s file = some (D.isDir cur) → getFreeFlides s.flides = some i →
      Fair s cond (k (s.put i (some ⟨cur, 0⟩)) i ⟨cur, 0⟩)) : Fair s cond (withFile D s l file k) := by
  apply (call_ensures .inl (vfsOpen_ensures D s file)).bind
  rintro r ⟨free, ⟨missing, rfl⟩ | ⟨cur, i, here, slot, rfl⟩⟩
  · exact saying l _ fun _ => iff_of_true rfl (absent (look_eq missing))
  · simp only [if_neg (Int.not_lt.mpr (Int.natCast_nonneg i))]
    apply (fileAt_put slot _).bind
    rintro _ rfl
    exact found cur i free (look_eq here) slot

theorem readText_ensures {full : Prop} (D : FileSystems W S I E) (s : State W S I) (l : Locals) (fd : Int)
    (clear nbyte : Nat) :
    Ensures (fun r => Keeps s r.1) (Trips full) (readText D s l fd clear nbyte) :=
  (store_ensures l _).bind fun l' _ => (call_safe (vfsRead_ensures D s fd l'.text nbyte)).bind fun _ keeps => keeps

/-- What follows the calls on the descriptor: it is closed. -/
theorem closing {s' : State W S I} {f : File I} (free : s.lockVfs = false) (slot : getFreeFlides s.flides = some i)
    (keeps : Keeps (s.put i (some f)) s') :
    Ensures (fun r => Keeps s r.1) (Trips False) (call (vfsClose D.toDriver s' i)) :=
  call_safe (vfsClose_restores free slot (by rw [keeps.opened, put_opened]; rfl))

/-! ### `cd` -/

variable {pwd name : Path} {moves : List Move} {ret : Int} {Q : State W S I × Path × Int → Prop} {full : Prop}

/-- A round of the loop that opens a path: nothing is there, a directory is closed again, and a file stays open. -/
theorem cdLoop_enter (trips : getFreeFlides s.flides = none → full)
    (absent : s.lockVfs = false → look D s (pwd ++ name) = none → Q (s, pwd, -1))
    (dir : s.lockVfs = false → look D s (pwd ++ name) = some true →
      Ensures Q (Trips full) (cdLoop D s (pwd ++ name ++ [slash]) moves ret))
    (other : look D s (pwd ++ name) = some false → ∀ cur i, getFreeFlides s.flides = some i →
      Ensures Q (Trips full) (cdLoop D (s.put i (some ⟨cur, 0⟩)) pwd moves (-2))) :
    Ensures Q (Trips full) (cdLoop D s pwd (.enter name :: moves) ret) := by
  apply (fits_ensures _).bind
  rintro _ rfl
  apply (call_ensures trips (vfsOpen_ensures D s (pwd ++ name))).bind
  rintro r ⟨free, ⟨missing, rfl⟩ | ⟨cur, i, here, slot, rfl⟩⟩
  · exact absent free (look_eq missing)
  · simp only [if_pos (Int.natCast_nonneg i)]
    apply (fileAt_put slot _).bind
    rintro _ rfl
    have found := look_eq here
    cases kind : D.isDir cur with
    | true =>
      rw [if_pos rfl]
      apply (call_safe (vfsClose_put free slot)).bind
      rintro _ rfl
      apply (fits_ensures _).bind
      rintro _ rfl
      exact dir free (found.trans (congrArg some kind))
    | false =>
      rw [if_neg Bool.false_ne_true]
      exact other (found.trans (congrArg some kind)) cur i slot

/-- The loop closes no descriptor that was open before. -/
theorem cdLoop_grows (D : FileSystems W S I E) (s : State W S I) (pwd : Path) (moves : List Move) (ret : Int) :
    Ensures (fun r => ∀ j : Nat, (opened s.flides)[j]? = some true → (opened r.1.flides)[j]? = some true) (Trips True)
      (cdLoop D s pwd moves ret) := by
  induction moves generalizing s pwd ret with
  | nil => exact fun _ h => h
  | cons move moves ih =>
    cases move with
    | stay => exact ih s pwd ret
    | up => exact ih s (parent pwd) ret
    | enter name =>
      apply cdLoop_enter (fun _ => trivial) (fun _ _ _ h => h) (fun _ _ => ih s _ ret)
      intro _ cur i slot
      refine (ih _ pwd (-2)).mono (fun r grows j used => grows j ?_) fun _ h => h
      have free := opened_free slot
      obtain ⟨inside, -⟩ := Vector.getElem?_eq_some_iff.mp free
      rw [put_opened, Vector.getElem?_setIfInBounds]
      split
      · simp
      · exact used

/-- Over directories, the loop does not change the state. -/
theorem cdLoop_directories (clean : some false ∉ visited (look D s) pwd moves) :
    Ensures (fun r => r.1 = s) (Trips (getFreeFlides s.flides = none)) (cdLoop D s pwd moves ret) := by
  induction moves generalizing pwd ret with
  | nil => rfl
  | cons move moves ih =>
    cases move with
    | stay => exact ih clean
    | up => exact ih clean
    | enter name =>
      rw [visited] at clean
      refine cdLoop_enter id (fun _ _ => rfl) (fun _ dir => ?_) fun other => ?_
      · rw [dir] at clean
        exact ih fun mem => clean (List.mem_cons_of_mem _ mem)
      · rw [other] at clean
        exact absurd List.mem_cons_self clean

/-- A file that the loop meets stays open. -/
theorem cdLoop_file (met : some false ∈ visited (look D s) pwd moves) :
    Ensures (fun r => opened r.1.flides ≠ opened s.flides) (Trips True) (cdLoop D s pwd moves ret) := by
  induction moves generalizing pwd ret with
  | nil => cases met
  | cons move moves ih =>
    cases move with
    | stay => exact ih met
    | up => exact ih met
    | enter name =>
      rw [visited] at met
      refine cdLoop_enter (fun _ => trivial) (fun _ absent => ?_) (fun _ dir => ?_) fun _ cur i slot => ?_
      · simp [absent] at met
      · rw [dir] at met
        exact ih (List.mem_of_ne_of_mem (by decide) met)
      · refine (cdLoop_grows D _ pwd moves (-2)).mono (fun r grows same => ?_) fun _ h => h
        have free := opened_free slot
        obtain ⟨inside, -⟩ := Vector.getElem?_eq_some_iff.mp free
        have used := grows i (by rw [put_opened]; simp [inside])
        rw [same, free] at used
        cases used

theorem cd_fair (D : FileSystems W S I E) (s : State W S I) (l : Locals) (arg1 : Option Path) :
    Fair s (Closes D s l (.cd arg1)) (cd D s l arg1) := by
  cases arg1 with
  | none => exact fair_say _ _
  | some arg1 =>
    by_cases clean : some false ∈ visited (look D s) (cdStart l.pwd arg1) (cdMoves arg1)
    · apply ((cdLoop_file clean).mono (fun _ h => h) fun _ => Trips.mono fun _ => .inr (not_not.mpr clean)).bind
      exact fun r differ => saying _ _ fun _ => iff_of_false differ (not_not.mpr clean)
    · apply ((cdLoop_directories clean).mono (fun _ h => h) fun _ => Trips.mono .inl).bind
      rintro ⟨_, pwd, ret⟩ rfl
      exact saying _ _ fun _ => iff_of_true rfl clean

/-! ### The other commands -/

variable {arg : Option Path}

theorem stat_fair (D : FileSystems W S I E) (junk : Junk) (s : State W S I) (l : Locals) (arg : Option Path) :
    Fair s True (stat D junk s l arg) := by
  cases arg with
  | none => exact fair_say _ _
  | some arg1 =>
    apply (modify_ensures l.pwd arg1).bind
    rintro _ rfl
    apply fair_withFile l (fun _ => trivial)
    intro cur i free _ slot
    split
    · exact nofun
    · refine .of_keeps trivial ((say_ensures l _).bind fun l' _ => ?_)
      exact (closing free slot (.refl _)).bind fun _ keeps => keeps.opened

theorem ls_fair (D : FileSystems W S I E) (s : State W S I) (l : Locals) (arg : Option Path) :
    Fair s (Closes D s l (.ls arg)) (ls D s l arg) := by
  apply (modify_ensures l.pwd _).bind
  rintro _ rfl
  refine fair_withFile l (fun absent => ?_) fun cur i free here slot => ?_
  · simp [Closes, absent]
  · cases kind : D.isDir cur with
    | true =>
      rw [if_pos rfl]
      -- how many bytes are read does not matter
      generalize listBytes = n
      apply Fair.of_keeps (by simp [Closes, here, kind])
      apply (readText_ensures D _ l i n n).bind
      intro r keeps
      exact (closing free slot keeps).bind fun _ keeps => keeps.opened
    | false =>
      rw [if_neg Bool.false_ne_true]
      exact .of_left (by simp [Closes, here, kind]) slot l _

theorem mkdir_fair (D : FileSystems W S I E) (s : State W S I) (l : Locals) (arg : Option Path) :
    Fair s True (mkdir D s l arg) := by
  cases arg with
  | none => exact fair_say _ _
  | some arg1 =>
    apply (modify_ensures l.pwd arg1).bind
    intro file _
    refine Fair.of_keeps trivial ((call_safe (vfsMkdir_ensures D s file)).bind fun _ keeps => ?_)
    exact saying l _ fun _ => keeps.opened

theorem remove_fair {wrong : I → Bool} {text : Path → List Byte}
    {unlink : State W S I → Path → Except (Vfs.Stop E) (State W S I × Int)}
    (keeps : ∀ s path, Ensures (fun r => Keeps s r.1) (OnAssertion False) (unlink s path)) (l : Locals) (arg1 : Path)
    (absent : look D s (target l.pwd arg1) = none → cond)
    (found : ∀ cur, look D s (target l.pwd arg1) = some (D.isDir cur) → (cond ↔ wrong cur = false)) :
    Fair s cond (remove D wrong text unlink s l (some arg1)) := by
  apply (modify_ensures l.pwd arg1).bind
  rintro _ rfl
  apply fair_withFile l absent
  intro cur i free here slot
  cases kind : wrong cur with
  | true =>
    rw [if_pos rfl]
    exact .of_left (by simp [found cur here, kind]) slot l _
  | false =>
    rw [if_neg Bool.false_ne_true]
    refine .of_keeps ((found cur here).mpr kind) ((closing free slot (.refl _)).bind fun r closed => ?_)
    apply (call_safe (keeps r.1 _)).bind
    intro r' removed
    have same : opened r'.1.flides = opened s.flides := removed.opened.trans closed.opened
    simp only
    split
    · exact saying l _ fun _ => same
    · exact saying l _ fun _ => same

theorem rmdir_fair (D : FileSystems W S I E) (s : State W S I) (l : Locals) (arg : Option Path) :
    Fair s (Closes D s l (.rmdir arg)) (rmdir D s l arg) := by
  cases arg with
  | none => exact fair_say _ _
  | some arg1 =>
    refine remove_fair (vfsRmdir_ensures D) l arg1 (fun absent => ?_) fun cur here => ?_
    · simp [Closes, absent]
    · simp [Closes, here]

theorem rm_fair (D : FileSystems W S I E) (s : State W S I) (l : Locals) (arg : Option Path) :
    Fair s (Closes D s l (.rm arg)) (rm D s l arg) := by
  cases arg with
  | none => exact fair_say _ _
  | some arg1 =>
    refine remove_fair (vfsUnlink_ensures D) l arg1 (fun absent => ?_) fun cur here => ?_
    · simp [Closes, absent]
    · simp [Closes, here]

theorem touch_fair (D : FileSystems W S I E) (s : State W S I) (l : Locals) (arg : Option Path) :
    Fair s (Closes D s l (.touch arg)) (touch D s l arg) := by
  cases arg with
  | none => exact fair_say _ _
  | some arg1 =>
    apply (modify_ensures l.pwd arg1).bind
    rintro _ rfl
    apply (call_ensures .inl (vfsOpen_ensures D s _)).bind
    rintro r ⟨free, ⟨missing, rfl⟩ | ⟨cur, i, here, slot, rfl⟩⟩
    · have none : Closes D s l (.touch (some arg1)) := look_eq missing
      apply (call_ensures .inl (vfsOpen_creates D s _)).bind
      rintro ⟨s', fd⟩ (⟨rfl, same, -⟩ | ⟨file, i, slot, rfl, flides, lock⟩)
      · exact saying l _ fun _ => iff_of_true (congrArg opened same) none
      · simp only [if_pos (Int.natCast_nonneg i)]
        have took : opened s'.flides = (opened s.flides).setIfInBounds i true := by rw [flides, opened_set]; rfl
        refine Fair.of_keeps none ((call_safe (vfsClose_restores free slot took)).bind fun _ keeps => ?_)
        exact saying l _ fun _ => keeps.opened
    · simp only [if_pos (Int.natCast_nonneg i)]
      exact Fair.of_left (by simp [Closes, look_eq here]) slot l _

theorem cat_fair (D : FileSystems W S I E) (s : State W S I) (l : Locals) (arg : Option Path) :
    Fair s (Closes D s l (.cat arg)) (cat D s l arg) := by
  cases arg with
  | none => exact fair_say _ _
  | some arg1 =>
    apply (modify_ensures l.pwd arg1).bind
    rintro _ rfl
    refine fair_withFile l (fun absent => ?_) fun cur i free here slot => ?_
    · simp [Closes, absent]
    · cases kind : D.isDir cur with
      | true =>
        rw [if_pos rfl]
        exact .of_left (by simp [Closes, here, kind]) slot l _
      | false =>
        rw [if_neg Bool.false_ne_true]
        generalize textBytes = n
        apply Fair.of_keeps (by simp [Closes, here, kind])
        apply (readText_ensures D _ l i n n).bind
        intro r keeps
        have done (l' : Locals) : Ensures (fun r => opened r.1.flides = opened s.flides) (Trips False) (do
            let closed ← call (vfsClose D.toDriver r.1 i)
            .ok (closed.1, l') : Except (Stop E) (After W S I)) := (closing free slot keeps).bind
              fun _ keeps => keeps.opened
        simp only
        split
        · exact (say_ensures _ _).bind fun l' _ => done l'
        · exact done r.2.1

/-- A link that returns has left the descriptor of the old path open. -/
theorem link_fair (D : FileSystems W S I E) (s : State W S I) (l : Locals) (args : Option (Path × Path)) :
    Fair s (Closes D s l (.link args)) (link D s l args) := by
  cases args with
  | none => exact fair_say _ _
  | some args =>
    obtain ⟨arg1, arg2⟩ := args
    refine (modify_ensures l.pwd arg1).bind fun oldpath _ => (modify_ensures l.pwd arg2).bind fun newpath _ => ?_
    apply (call_ensures (fun _ => .inr not_false) (vfsLink_ensures D s oldpath newpath)).bind
    intro r differ
    simp only
    split
    · exact saying l _ fun _ => iff_of_false differ not_false
    · exact saying l _ fun _ => iff_of_false differ not_false

theorem write_fair (D : FileSystems W S I E) (s : State W S I) (l : Locals) (args : Option (Path × Path)) :
    Fair s True (write D s l args) := by
  cases args with
  | none => exact fair_say _ _
  | some args =>
    obtain ⟨arg1, arg2⟩ := args
    refine Fair.of_keeps trivial ((call_safe (vfsWrite_ensures D s (number arg1) arg2)).bind fun r keeps => ?_)
    simp only
    split
    · exact saying l _ fun _ => keeps.opened
    · exact saying l _ fun _ => keeps.opened

theorem read_fair (D : FileSystems W S I E) (s : State W S I) (l : Locals) (arg : Option Path) :
    Fair s True (read D s l arg) := by
  have reads (l : Locals) (fd : Int) (n : Nat) : Ensures (fun r => opened r.1.flides = opened s.flides)
      (Trips False) (do
      let r ← readText D s l fd 0 n
      if r.2.2 < 0 then .ok (r.1, ← r.2.1.say (cannotRead fd)) else .ok (r.1, r.2.1) : Except (Stop E)
        (After W S I)) := by
    apply (readText_ensures D s l fd 0 n).bind
    intro r keeps
    split
    · exact saying _ _ fun _ => keeps.opened
    · exact keeps.opened
  cases arg with
  | none => exact Fair.of_keeps trivial ((say_ensures l _).bind fun l' _ => reads l' _ _)
  | some arg1 => exact Fair.of_keeps trivial (reads l _ _)

theorem lseek_fair (D : FileSystems W S I E) (s : State W S I) (l : Locals) (whence : Int)
    (args : Option (Path × Path)) :
    Fair s True (lseek D s l whence args) := by
  cases args with
  | none => exact fair_say _ _
  | some args =>
    obtain ⟨arg1, arg2⟩ := args
    refine Fair.of_keeps trivial
      ((call_safe (vfsLseek_ensures D s (number arg1) (number arg2) whence)).bind fun r keeps => ?_)
    simp only
    split
    · exact saying l _ fun _ => keeps.opened
    · exact saying l _ fun _ => keeps.opened

theorem mountLines_ensures (D : FileSystems W S I E) (ms : List (Mountpoint S)) :
    Ensures (fun _ => True) (Trips False) (mountLines D ms) := by
  induction ms with
  | nil => trivial
  | cons m ms ih =>
    rw [mountLines]
    split
    · split
      · exact nofun
      · exact ih.bind fun _ _ => trivial
    · exact ih

theorem mount_fair (D : FileSystems W S I E) (s : State W S I) (l : Locals) : Fair s True (mount D s l) :=
  .of_keeps trivial ((mountLines_ensures D _).bind fun _ _ => saying l _ fun _ => rfl)

/-- A command that opens or closes a descriptor for the user. -/
def Command.Opens : Command → Prop
  | .open _ => True
  | .close _ => True
  | _ => False

theorem run_fair (D : FileSystems W S I E) (junk : Junk) (s : State W S I) (l : Locals) (line : List Byte)
    (other : ¬(parse line).Opens) : Fair s (Closes D s l (parse line)) (run D junk s l line) := by
  unfold run
  cases command : parse line with
  | pwd => exact fair_say l _
  | exit => exact nofun
  | cd arg1 => exact cd_fair D s l arg1
  | stat arg1 => exact stat_fair D junk s l arg1
  | ls arg1 => exact ls_fair D s l arg1
  | mkdir arg1 => exact mkdir_fair D s l arg1
  | rmdir arg1 => exact rmdir_fair D s l arg1
  | rm arg1 => exact rm_fair D s l arg1
  | touch arg1 => exact touch_fair D s l arg1
  | cat arg1 => exact cat_fair D s l arg1
  | link args => exact link_fair D s l args
  | «open» arg1 => simp [command, Command.Opens] at other
  | close arg1 => simp [command, Command.Opens] at other
  | write args => exact write_fair D s l args
  | read arg1 => exact read_fair D s l arg1
  | lseek args whence => exact lseek_fair D s l whence args
  | mount => exact mount_fair D s l
  | unknown => exact fair_say l _

/-! ### Sessions -/

/-- The loop of `shell_task` with commands that close what they open; between its calls, other tasks change the world,
the mount table and the lock. -/
inductive Step (D : FileSystems W S I E) (junk : Junk) (term : Terminal) :
    State W S I × Locals × List Byte → Unit → State W S I × Locals × List Byte → Prop where
  | prompt {s s' : State W S I} {l l' : Locals} {line line' : List Byte}
      (done : prompt D term s l line = .ok (s', l', line')) : Step D junk term (s, l, line) () (s', l', line')
  | command {s s' : State W S I} {l l' : Locals} {line : List Byte}
      (other : ¬(parse (line.takeWhile (· ≠ 0))).Opens) (closes : Closes D s l (parse (line.takeWhile (· ≠ 0))))
      (done : execute D junk term s l line = .ok (s', l')) : Step D junk term (s, l, line) () (s', l', line)
  | other {s s' : State W S I} {l : Locals} {line : List Byte} (same : s'.flides = s.flides) :
      Step D junk term (s, l, line) () (s', l, line)

def session (D : FileSystems W S I E) (junk : Junk) (term : Terminal) (start : State W S I × Locals × List Byte) :
    Machine (State W S I × Locals × List Byte) Unit where
  Init st := st = start
  Step := Step D junk term

theorem printText_ensures (D : FileSystems W S I E) (term : Terminal) (s : State W S I) (l : Locals) :
    Ensures (fun s' => opened s'.flides = opened s.flides) (Trips False) (printText D term s l) := by
  unfold printText
  split
  · exact (call_safe (vfsWrite_ensures D s term.fd _)).bind fun _ keeps => keeps.opened
  · exact nofun

theorem prompt_ensures (D : FileSystems W S I E) (term : Terminal) (s : State W S I) (l : Locals) (line : List Byte) :
    Ensures (fun r => opened r.1.flides = opened s.flides) (Trips False) (prompt D term s l line) := by
  refine (say_ensures l _).bind fun l' _ => (printText_ensures D term s l').bind fun s₁ printed => ?_
  apply (call_safe (vfsRead_ensures D s₁ term.fd line pathBytes)).bind
  intro r keeps
  simp only
  split
  · split
    · exact keeps.opened.trans printed
    · exact nofun
  · exact nofun

theorem execute_ensures (other : ¬(parse (line.takeWhile (· ≠ 0))).Opens)
    (closes : Closes D s l (parse (line.takeWhile (· ≠ 0))))
    (term : Terminal) : Ensures (fun r => opened r.1.flides = opened s.flides) (Trips (getFreeFlides s.flides = none))
      (execute D junk term s l line) := by
  have fair := (run_fair D junk s l _ other).mono (fun _ same => same.mpr closes) fun _ =>
    Trips.mono fun full => full.resolve_right (not_not.mpr closes)
  apply fair.bind
  intro r same
  apply ((printText_ensures D term r.1 r.2).mono (fun _ h => h) fun _ => Trips.mono False.elim).bind
  intro s' printed
  exact printed.trans same

theorem step_opened {junk : Junk} {term : Terminal} {st st' : State W S I × Locals × List Byte} {label : Unit}
    (step : Step D junk term st label st') : opened st'.1.flides = opened st.1.flides := by
  cases step with
  | prompt done => exact (prompt_ensures D term _ _ _).value done
  | command other closes done => exact (execute_ensures other closes term).value done
  | other same => exact congrArg opened same

theorem session_opened {junk : Junk} {term : Terminal} {start st : State W S I × Locals × List Byte}
    (h : (session D junk term start).Reachable st) : opened st.1.flides = opened start.1.flides :=
  h.induct (fun st => opened st.1.flides = opened start.1.flides) (by rintro _ rfl; rfl) fun _ _ _ same step =>
    (step_opened step).trans same

/-- **A command that returns leaves the open descriptors as they were exactly when it closes what it opens. Then the
assertion of `vfs_open` fails only where all descriptors were in use before, and any number of such commands leaves them
as they were.** -/
theorem run_descriptors_iff (D : FileSystems W S I E) (junk : Junk) (s : State W S I) (l : Locals) (line : List Byte)
    (other : ¬(parse line).Opens) :
    (∀ s' l', run D junk s l line = .ok (s', l') →
      (opened s'.flides = opened s.flides ↔ Closes D s l (parse line))) ∧
    (run D junk s l line = .error (.vfs .assertion) → getFreeFlides s.flides = none ∨ ¬Closes D s l (parse line)) ∧
    ∀ term buf st, (session D junk term (s, l, buf)).Reachable st → opened st.1.flides = opened s.flides :=
  have fair := run_fair D junk s l line other
  ⟨fun _ _ done => fair.value done, fun failed => fair.failure failed rfl, fun _ _ _ h => session_opened h⟩

/-- The shell in "/" with a cleared `text`, on one ramdisk. -/
def rootLocals : Locals := ⟨[slash], List.replicate textBytes 0⟩

def oneDisk : FileSystems (Disks Unit) Unit (Unit × Ext2.VfsInode) Ext2.Fault :=
    ext2FileSystems 0 fun _ => cstr "ramdisk0"

/-- Whether a line leaves the open descriptors of a fresh disk as they were. -/
def freshKeeps (line : String) : Except Ext2.Fault Bool := do
  let (dev, gid) ← Ext2.ext2Init (fun _ => 0) 0 []
  match run oneDisk ⟨0, [], []⟩ (rootState dev gid) rootLocals (cstr line) with
  | .ok (s, _) => .ok (opened s.flides = opened (rootState dev gid).flides)
  | .error _ => .error .null

theorem freshKeeps_ok {line : String} {same : Bool} (done : freshKeeps line = .ok same) :
    ∃ dev gid s' l', Ext2.ext2Init (fun _ => 0) 0 [] = .ok (dev, gid) ∧
      run oneDisk ⟨0, [], []⟩ (rootState dev gid) rootLocals (cstr line) = .ok (s', l') ∧
      (same = true ↔ opened s'.flides = opened (rootState dev gid).flides) := by
  obtain ⟨⟨dev, gid⟩, fresh, done⟩ := bind_ok done
  cases ran : run oneDisk ⟨0, [], []⟩ (rootState dev gid) rootLocals (cstr line) with
  | error e =>
    simp only [ran] at done
    cases done
  | ok r =>
    simp only [ran] at done
    refine ⟨dev, gid, r.1, r.2, fresh, ran, ?_⟩
    rw [← Except.ok.inj done, decide_eq_true_eq]

/-- "." is a directory: `cat` prints that, and leaves the descriptor. -/
theorem run_descriptors_iff_counterexample : ∃ dev gid s' l', Ext2.ext2Init (fun _ => 0) 0 [] = .ok (dev, gid) ∧
    run oneDisk ⟨0, [], []⟩ (rootState dev gid) rootLocals (cstr "cat .") = .ok (s', l') ∧
    opened s'.flides ≠ opened (rootState dev gid).flides := by
  have ran : freshKeeps "cat ." = .ok false := by decide +kernel
  obtain ⟨dev, gid, s', l', fresh, done, same⟩ := freshKeeps_ok ran
  exact ⟨dev, gid, s', l', fresh, done, fun kept => nomatch same.mpr kept⟩

theorem run_descriptors_iff_sample : ∃ dev gid, Ext2.ext2Init (fun _ => 0) 0 [] = .ok (dev, gid) ∧
    Closes oneDisk (rootState dev gid) rootLocals (parse (cstr "ls .")) := by
  have ran : freshKeeps "ls ." = .ok true := by decide +kernel
  obtain ⟨dev, gid, s', l', fresh, done, same⟩ := freshKeeps_ok ran
  have listing : ¬(parse (cstr "ls .")).Opens := by
    rw [show parse (cstr "ls .") = .ls (some [46]) by decide +kernel]
    exact id
  exact ⟨dev, gid, fresh, ((run_descriptors_iff oneDisk _ _ _ _ listing).1 s' l' done).mp (same.mp rfl)⟩

end OsLabs.Shell

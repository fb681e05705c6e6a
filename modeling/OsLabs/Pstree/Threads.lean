import OsLabs.Pstree.Stat

/-!
# The threads of a process

With `-p` there is a node for each thread. Without it there is one node for all of them, which is made anew
at every numeric name, from the counter that is then set back to 1: so it never counts more than two, and one
when the process's own id comes last.
-/

namespace OsLabs.Pstree
open Util Function

variable {showpid : Bool} {pid : CInt} {name tmp dName : List Byte} {task : List (List Byte)} {t t' : Threads}

/-- The ids of the names that are numbers, in their order. -/
def ids (task : List (List Byte)) : List CInt := (task.filter isnumber).map atoi

def tids (pid : CInt) (task : List (List Byte)) : List CInt := (ids task).filter (· ≠ pid)

/-- The number in the one node without `-p`. -/
def shownCount (pid : CInt) (task : List (List Byte)) : Nat :=
  if (ids task).getLast? = some pid then 1 else min (tids pid task).length 2

/-- What is expected of the nodes: one for each other thread with `-p`, else one with their number if there are any. -/
def ShowsThreads (showpid : Bool) (pid : CInt) (task : List (List Byte)) (thr : List Thread) : Prop :=
  if showpid then thr.map Thread.pid = tids pid task
  else if tids pid task = [] then thr = []
  else ∃ node, thr = [node] ∧ node.pid.toInt = (tids pid task).length

/-! ### One name -/

theorem ids_concat : ids (task ++ [dName]) = ids task ++ if isnumber dName then [atoi dName] else [] := by
  unfold ids
  rw [List.filter_append, List.map_append]
  cases number : isnumber dName <;> simp [number]

theorem tids_concat : tids pid (task ++ [dName]) =
    tids pid task ++ if isnumber dName ∧ atoi dName ≠ pid then [atoi dName] else [] := by
  unfold tids
  rw [ids_concat, List.filter_append]
  cases number : isnumber dName
  · simp
  · by_cases own : atoi dName = pid <;> simp [own]

theorem put_ok {i : Nat} {id : CInt} (inside : i < arraySize) (short : name.length < 510) :
    t.put name i id = .ok { t with thr := update t.thr i (some ⟨braced name, id⟩), tmp := braced name } := by
  unfold Threads.put
  rw [if_neg (Nat.not_le.mpr inside), if_neg (by simp [braced, nameSize]; omega)]

/-- What the loop has made of the names so far. -/
def Made (showpid : Bool) (pid : CInt) (name : List Byte) (task : List (List Byte)) (t : Threads) : Prop :=
  if showpid then
    t.nthr = (tids pid task).length ∧ ∀ i, (h : i < (tids pid task).length) →
      t.thr i = some ⟨braced name, (tids pid task)[i]⟩
  else if tids pid task = [] then t.nthr = 0
  else t.nthr = 1 ∧ t.thr 0 = some ⟨braced name, BitVec.ofNat 32 (shownCount pid task)⟩

theorem readEntry_skips (number : isnumber dName = false) : readEntry showpid pid name t dName = .ok t := by
  unfold readEntry
  rw [if_neg (by rw [number]; decide)]

/-- With `-p` every other id gets a node of its own. -/
theorem readEntry_showpid (number : isnumber dName = true) (inside : atoi dName ≠ pid → t.nthr < arraySize)
    (short : name.length < 510) :
    ∃ t', readEntry true pid name t dName = .ok t' ∧
      if atoi dName = pid then t' = t
      else t'.nthr = t.nthr + 1 ∧ t'.thr = update t.thr t.nthr (some ⟨braced name, atoi dName⟩) := by
  unfold readEntry
  rw [if_pos number]
  by_cases own : atoi dName = pid
  · exact ⟨t, by simp [own, bind, Except.bind], by rw [if_pos own]⟩
  · refine ⟨⟨update t.thr t.nthr (some ⟨braced name, atoi dName⟩), t.nthr + 1, braced name⟩, ?_, ?_⟩
    · simp only [own, if_false, if_true, bind, Except.bind, put_ok (inside own) short]
      simp
    · rw [if_neg own]
      exact ⟨rfl, rfl⟩

/-- Without `-p` the number is what the counter has come to since it was set back to 1. -/
theorem readEntry_collapses (number : isnumber dName = true) (short : name.length < 510) {count : Nat}
    (counted : count = if atoi dName = pid then t.nthr else t.nthr + 1) :
    ∃ t', readEntry false pid name t dName = .ok t' ∧
      if count = 0 then t'.nthr = 0
      else t'.nthr = 1 ∧ t'.thr 0 = some ⟨braced name, BitVec.ofNat 32 count⟩ := by
  have body : readEntry false pid name t dName = (if 0 < count then do
      let t ← ({ t with nthr := count }).put name 0 (BitVec.ofNat 32 count)
      .ok { t with nthr := 1 }
    else .ok { t with nthr := count }) := by
    unfold readEntry
    rw [if_pos number, counted]
    by_cases own : atoi dName = pid <;> simp [own, bind, Except.bind]
  rw [body]
  by_cases none : count = 0
  · rw [none]
    exact ⟨_, rfl, rfl⟩
  · rw [if_pos (Nat.pos_of_ne_zero none), put_ok (by decide) short]
    refine ⟨_, rfl, ?_⟩
    rw [if_neg none]
    dsimp only
    exact ⟨rfl, update_self ..⟩

/-! ### All names -/

theorem made_skip (number : isnumber dName = false) (made : Made showpid pid name task t) :
    Made showpid pid name (task ++ [dName]) t := by
  have sameIds : ids (task ++ [dName]) = ids task := by rw [ids_concat, number]; exact List.append_nil _
  have sameTids : tids pid (task ++ [dName]) = tids pid task := congrArg (List.filter (· ≠ pid)) sameIds
  unfold Made shownCount at *
  rw [sameTids, sameIds]
  exact made

theorem shownCount_concat (number : isnumber dName = true) :
    shownCount pid (task ++ [dName]) = if atoi dName = pid then 1 else min ((tids pid task).length + 1) 2 := by
  unfold shownCount
  rw [ids_concat, tids_concat, number, if_pos rfl, List.getLast?_concat]
  by_cases own : atoi dName = pid <;> simp [own]

theorem made_showpid (number : isnumber dName = true) (short : name.length < 510)
    (room : (tids pid (task ++ [dName])).length ≤ arraySize) (made : Made true pid name task t) :
    ∃ t', readEntry true pid name t dName = .ok t' ∧ Made true pid name (task ++ [dName]) t' := by
  obtain ⟨counted, nodes⟩ := made
  have grown : tids pid (task ++ [dName]) = tids pid task ++ if atoi dName = pid then [] else [atoi dName] := by
    rw [tids_concat, number]
    by_cases own : atoi dName = pid <;> simp [own]
  obtain ⟨t', done, after⟩ := @readEntry_showpid pid name dName t number (fun other => by
    rw [grown, if_neg other, List.length_append, List.length_singleton] at room
    omega) short
  refine ⟨t', done, ?_⟩
  unfold Made
  simp only [grown, if_true]
  by_cases own : atoi dName = pid
  · rw [if_pos own] at after
    simp only [own, if_true, List.append_nil, after]
    exact ⟨counted, nodes⟩
  · rw [if_neg own] at after
    obtain ⟨next, stored⟩ := after
    simp only [own, if_false, List.length_append, List.length_singleton, next, stored, counted]
    refine ⟨trivial, fun i inside => ?_⟩
    by_cases last : i = (tids pid task).length
    · subst last
      rw [update_self, List.getElem_concat_length rfl]
    · have earlier : i < (tids pid task).length := by omega
      rw [update_of_ne last, List.getElem_append_left earlier]
      exact nodes i earlier

theorem made_collapsed (number : isnumber dName = true) (short : name.length < 510)
    (made : Made false pid name task t) :
    ∃ t', readEntry false pid name t dName = .ok t' ∧ Made false pid name (task ++ [dName]) t' := by
  have before : t.nthr = min (tids pid task).length 1 := by
    unfold Made at made
    by_cases none : tids pid task = []
    · rw [if_neg (by decide), if_pos none] at made
      rw [made, none]
      rfl
    · rw [if_neg (by decide), if_neg none] at made
      have some := List.length_pos_of_ne_nil none
      rw [made.1]
      omega
  obtain ⟨t', done, after⟩ := @readEntry_collapses pid name dName t number short _ rfl
  refine ⟨t', done, ?_⟩
  unfold Made
  rw [if_neg (by decide), shownCount_concat number, tids_concat, number]
  by_cases own : atoi dName = pid
  · simp only [own, if_true, before] at after ⊢
    by_cases none : tids pid task = []
    · simpa [none] using after
    · have some := List.length_pos_of_ne_nil none
      have one : min (tids pid task).length 1 = 1 := by omega
      simpa [none, one] using after
  · simp only [own, if_false, before] at after ⊢
    by_cases none : tids pid task = []
    · simpa [none, own] using after
    · have some := List.length_pos_of_ne_nil none
      have two : min (tids pid task).length 1 + 1 = min ((tids pid task).length + 1) 2 := by omega
      simpa [none, own, two] using after

theorem readTask_made (tmp : List Byte) (short : name.length < 510)
    (room : showpid = true → (tids pid task).length ≤ arraySize) :
    ∃ t, readTask showpid pid name task tmp = .ok t ∧ Made showpid pid name task t := by
  induction task using List.reverseRecOn with
  | nil =>
    refine ⟨_, rfl, ?_⟩
    cases showpid
    · exact rfl
    · exact ⟨rfl, nofun⟩
  | append_singleton task dName ih =>
    have earlier (shown : showpid = true) : (tids pid task).length ≤ arraySize := by
      have all := room shown
      rw [tids_concat, List.length_append] at all
      omega
    obtain ⟨t, read, made⟩ := ih earlier
    have body : readTask showpid pid name (task ++ [dName]) tmp = readEntry showpid pid name t dName := by
      unfold readTask at read ⊢
      rw [List.foldlM_append, read]
      exact bind_pure (readEntry showpid pid name t dName)
    rw [body]
    cases number : isnumber dName
    · exact ⟨t, readEntry_skips number, made_skip number made⟩
    · cases showpid
      · exact made_collapsed number short made
      · exact made_showpid number short (room rfl) made

theorem filterMap_range {l : List CInt} {f : Nat → Option Thread} {g : CInt → Thread}
    (h : ∀ i, (inside : i < l.length) → f i = some (g l[i])) : (List.range l.length).filterMap f = l.map g := by
  induction l using List.reverseRecOn with
  | nil => rfl
  | append_singleton l id ih =>
    have last := h l.length (by simp)
    rw [List.getElem_concat_length rfl] at last
    rw [List.length_append, List.length_singleton, List.range_succ, List.filterMap_append, List.map_append, ih]
    · exact congrArg _ (List.filterMap_cons_some last)
    · intro i inside
      rw [h i (by simp; omega), List.getElem_append_left inside]

theorem toInt_count {n : Nat} (small : n ≤ 2) : (BitVec.ofNat 32 n).toInt = n := by
  interval_cases n <;> rfl

/-- The nodes are the ones expected with `-p`, and without it if the number in the one node is not held back. -/
theorem Made.showsThreads (made : Made showpid pid name task t) : ShowsThreads showpid pid task t.list ↔
    showpid = true ∨ (tids pid task).length ≤ 1 ∨ (tids pid task).length = 2 ∧ (ids task).getLast? ≠ some pid := by
  cases showpid
  · unfold Made at made
    by_cases none : tids pid task = []
    · rw [if_neg (by decide), if_pos none] at made
      refine iff_of_true ?_ (.inr (.inl (by rw [none]; decide)))
      simp [ShowsThreads, Threads.list, none, made]
    · rw [if_neg (by decide), if_neg none] at made
      obtain ⟨one, stored⟩ := made
      have some := List.length_pos_of_ne_nil none
      have nodes : t.list = [⟨braced name, BitVec.ofNat 32 (shownCount pid task)⟩] := by
        unfold Threads.list
        rw [one]
        exact List.filterMap_cons_some stored
      have shown : (BitVec.ofNat 32 (shownCount pid task)).toInt = shownCount pid task := by
        apply toInt_count
        unfold shownCount
        split <;> omega
      have counts : ShowsThreads false pid task t.list ↔ shownCount pid task = (tids pid task).length := by
        rw [ShowsThreads, if_neg (by decide), if_neg none, nodes]
        constructor
        · rintro ⟨node, same, number⟩
          rw [← (List.cons.inj same).1, shown] at number
          exact Int.ofNat.inj number
        · intro number
          exact ⟨_, rfl, by rw [shown, number]⟩
      rw [counts]
      unfold shownCount
      split <;> simp [*] <;> omega
  · obtain ⟨counted, nodes⟩ := made
    refine iff_of_true ?_ (.inl rfl)
    have listed : t.list = (tids pid task).map fun id => ⟨braced name, id⟩ := by
      unfold Threads.list
      rw [counted]
      exact filterMap_range nodes
    rw [ShowsThreads, if_pos rfl, listed, List.map_map]
    exact List.map_id _

/-! ### Processes -/

/-- A process whose lines, children and threads are such that `getinfo` stays inside its arrays. -/
inductive Regular (showpid : Bool) : Proc → Prop where
  | mk {id : CInt} {stat : List Byte} {children : List Proc} {task : List (List Byte)}
    (line : ∃ pid comm state ppid rest, LineParts pid comm state ppid rest ∧ stat = statLine pid comm state ppid rest)
    (few : children.length ≤ arraySize) (each : ∀ child ∈ children, Regular showpid child)
    (room : showpid = true → (tids id task).length ≤ arraySize) : Regular showpid (.mk id stat children task)

theorem getSons_returns {fresh : CInt → Stat} {children : List Proc} {nson : Nat} (tmp : List Byte)
    (each : ∀ child ∈ children, ∀ tmp, ∃ r, getinfo fresh showpid child tmp = .ok r)
    (few : nson + children.length ≤ arraySize) :
    ∃ r, getSons fresh showpid children nson tmp = .ok r := by
  induction children generalizing nson tmp with
  | nil => exact ⟨([], tmp), by unfold getSons; rfl⟩
  | cons child children ih =>
    rw [List.length_cons] at few
    obtain ⟨first, others⟩ := List.forall_mem_cons.mp each
    obtain ⟨⟨son, tmp₁⟩, one⟩ := first tmp
    obtain ⟨⟨sons, tmp₂⟩, rest⟩ := @ih (nson + 1) tmp₁ others (by omega)
    refine ⟨(son :: sons, tmp₂), ?_⟩
    unfold getSons
    rw [if_neg (by omega), one]
    simp only [bind, Except.bind, rest]

theorem getinfo_returns {p : Proc} (fresh : CInt → Stat) (regular : Regular showpid p) (tmp : List Byte) :
    ∃ r, getinfo fresh showpid p tmp = .ok r := by
  induction regular generalizing tmp with
  | @mk id stat children task line few each room ih =>
    obtain ⟨pid, comm, state, ppid, rest, parts, rfl⟩ := line
    obtain ⟨info, tmp₁, read, short, -⟩ := getStat_readsLine parts tmp (fresh id)
    have all : 0 + children.length ≤ arraySize := by omega
    obtain ⟨⟨son, tmp₂⟩, sons⟩ := getSons_returns tmp₁ ih all
    have bound := parts.short
    obtain ⟨t, threads, -⟩ := readTask_made tmp₂ (show info.name.length < 510 by omega) room
    refine ⟨(⟨info.pid, info.ppid, info.name, son, t.list⟩, t.tmp), ?_⟩
    unfold getinfo
    rw [read]
    simp only [bind, Except.bind, sons, threads]

/-- **A process has the nodes expected of it with `-p`. Without it that is so if and only if it has at most one other
thread, or two and its own id does not come last.** -/
theorem getinfo_showsThreads {id : CInt} {stat : List Byte} {children : List Proc}
    (regular : Regular showpid (.mk id stat children task))
    (fresh : CInt → Stat) (tmp : List Byte) :
    ∃ ret tmp', getinfo fresh showpid (.mk id stat children task) tmp = .ok (ret, tmp') ∧
      (ShowsThreads showpid id task ret.thr ↔
        showpid = true ∨ (tids id task).length ≤ 1 ∨ (tids id task).length = 2 ∧ (ids task).getLast? ≠ some id) := by
  obtain ⟨⟨ret, tmp'⟩, done⟩ := getinfo_returns fresh regular tmp
  refine ⟨ret, tmp', done, ?_⟩
  obtain ⟨info, tmp₁, son, tmp₂, t, read, -, threads, rfl, -⟩ := getinfo_cases done
  cases regular with
  | mk line few each room =>
    obtain ⟨pid, comm, state, ppid, rest, parts, rfl⟩ := line
    obtain ⟨info', tmp₁', read', short, -⟩ := getStat_readsLine parts tmp (fresh id)
    obtain ⟨rfl, rfl⟩ := Prod.mk.inj (Except.ok.inj (read'.symm.trans read))
    have bound := parts.short
    obtain ⟨t', threads', made⟩ := readTask_made tmp₂ (show info'.name.length < 510 by omega) room
    obtain rfl := Except.ok.inj (threads'.symm.trans threads)
    exact made.showsThreads

/-- A process with the id 7 and these names in its task directory. -/
def withTasks (task : List (List Byte)) : Proc := .mk 7 (statLine 7 (cstr "sh") 83 1 (cstr " 0\n")) [] task

theorem withTasks_regular (showpid : Bool) (room : (tids 7 task).length ≤ arraySize) :
    Regular showpid (withTasks task) :=
  .mk ⟨7, cstr "sh", 83, 1, cstr " 0\n",
    ⟨by decide, by decide, by decide, by decide, by decide, by simp [cstr, isspace]⟩, rfl⟩
    (by decide) nofun fun _ => room

theorem getinfo_showsThreads_sample :
    ∃ ret tmp', getinfo (fun _ => ⟨0, [], 0⟩) false (withTasks [cstr "7", cstr "8"]) [] = .ok (ret, tmp') ∧
    ShowsThreads false 7 [cstr "7", cstr "8"] ret.thr := by
  have regular : Regular false (withTasks [cstr "7", cstr "8"]) := withTasks_regular false (by decide)
  obtain ⟨ret, tmp', done, shows⟩ := getinfo_showsThreads regular (fun _ => ⟨0, [], 0⟩) []
  exact ⟨ret, tmp', done, shows.mpr (by decide)⟩

/-- Three threads behind its own id: the number in the node is 2. -/
theorem getinfo_showsThreads_counterexample : ∃ ret tmp',
    getinfo (fun _ => ⟨0, [], 0⟩) false (withTasks [cstr "7", cstr "8", cstr "9", cstr "10"]) [] = .ok (ret, tmp') ∧
      ret.thr = [⟨cstr "{sh}", 2⟩] ∧ ¬ShowsThreads false 7 [cstr "7", cstr "8", cstr "9", cstr "10"] ret.thr := by
  have read : getStat (statLine 7 (cstr "sh") 83 1 (cstr " 0\n")) [] ⟨0, [], 0⟩ =
      .ok (⟨7, cstr "sh", 1⟩, cstr "S") := by
    decide +kernel
  refine ⟨⟨7, 1, cstr "sh", [], [⟨cstr "{sh}", 2⟩]⟩, cstr "{sh}", ?_, rfl, ?_⟩
  · unfold withTasks getinfo getSons
    rw [read]
    rfl
  · rw [ShowsThreads, if_neg (by decide), if_neg (by decide)]
    rintro ⟨node, same, number⟩
    rw [← (List.cons.inj same).1] at number
    exact absurd number (by decide)

end OsLabs.Pstree

import Mathlib.Data.List.Dedup
import OsLabs.Sperf.Model

/-!
# The totals of the system calls

A redraw writes the row "others" behind the rows in use, with the time of the rows that it
has not drawn. The next new name takes that row and adds to the time it finds there.
-/

namespace OsLabs.Sperf
open Util Function

variable {calls : List (List Byte × ℚ)} {rows rows' : List Syscall} {s s' : State} {name : List Byte}
  {dur : ℚ} {i : Nat}

def total (calls : List (List Byte × ℚ)) (name : List Byte) : ℚ := ((calls.filter (·.1 = name)).map Prod.snd).sum

/-- One row for each name seen, with its total. -/
structure Accounts (calls : List (List Byte × ℚ)) (rows : List Syscall) : Prop where
  nodup : (rows.map Syscall.name).Nodup
  names : ∀ name, name ∈ rows.map Syscall.name ↔ name ∈ calls.map Prod.fst
  times : ∀ row ∈ rows, row.time = total calls row.name

/-- The system calls parsed so far, and what the last redraw since the last new name left to "others". -/
structure Log where
  calls : List (List Byte × ℚ)
  behind : ℚ

def totals (calls : List (List Byte × ℚ)) : List ℚ :=
  ((calls.map Prod.fst).dedup.map (total calls)).mergeSort fun x y => y ≤ x

def leftOut (calls : List (List Byte × ℚ)) : ℚ := (totals calls).sum - drawn (totals calls).sum (totals calls) 0

def Log.add (l : Log) : Event → Log
  | .call name dur => ⟨l.calls ++ [(name, dur)], if name ∈ l.calls.map Prod.fst then l.behind else 0⟩
  | .draw => ⟨l.calls, leftOut l.calls⟩

/-- A new name fits, and comes when nothing is left to "others". -/
def Allowed (l : Log) : Event → Prop
  | .call name _ => name ∉ l.calls.map Prod.fst → name.length < nameSize ∧ l.behind = 0
  | .draw => True

def Clean : Log → List Event → Prop
  | _, [] => True
  | l, e :: events => Allowed l e ∧ Clean (l.add e) events

/-! ### Totals -/

theorem total_concat (other : List Byte) :
    total (calls ++ [(name, dur)]) other = total calls other + if name = other then dur else 0 := by
  unfold total
  rw [List.filter_append, List.map_append, List.sum_append]
  by_cases same : name = other <;> simp [same]

theorem total_unseen (unseen : name ∉ calls.map Prod.fst) : total calls name = 0 := by
  have none : calls.filter (·.1 = name) = [] := by
    apply List.filter_eq_nil_iff.mpr
    intro call mem
    have other : call.1 ≠ name := fun same => unseen (List.mem_map.mpr ⟨call, mem, same⟩)
    simpa using other
  rw [total, none]
  rfl

theorem Accounts.perm (accounts : Accounts calls rows) (moved : rows'.Perm rows) : Accounts calls rows' where
  nodup := (moved.map Syscall.name).nodup_iff.mpr accounts.nodup
  names := fun name => (moved.map Syscall.name).mem_iff.trans (accounts.names name)
  times := fun row mem => accounts.times row (moved.mem_iff.mp mem)

theorem Accounts.names_perm (accounts : Accounts calls rows) :
    (rows.map Syscall.name).Perm (calls.map Prod.fst).dedup := by
  apply (List.perm_ext_iff_of_nodup accounts.nodup (List.nodup_dedup _)).mpr
  intro name
  rw [accounts.names, List.mem_dedup]

theorem Accounts.times_eq (accounts : Accounts calls rows)
    (sorted : rows.Pairwise fun x y => decide (x.time < y.time) = false) :
    rows.map Syscall.time = totals calls := by
  have each : rows.map Syscall.time = (rows.map Syscall.name).map (total calls) := by
    rw [List.map_map]
    exact List.map_congr_left accounts.times
  have moved : (rows.map Syscall.time).Perm (totals calls) := by
    rw [each]
    exact (accounts.names_perm.map (total calls)).trans (List.mergeSort_perm _ _).symm
  have descending : (rows.map Syscall.time).Pairwise fun x y => y ≤ x := by
    refine List.pairwise_map.mpr (sorted.imp fun right => ?_)
    exact not_lt.mp (of_decide_eq_false right)
  have other : (totals calls).Pairwise fun x y => y ≤ x := by
    refine (List.pairwise_mergeSort ?_ ?_ _).imp fun right => of_decide_eq_true right
    · intro x y z first second
      exact decide_eq_true ((of_decide_eq_true second).trans (of_decide_eq_true first))
    · intro x y
      simpa using le_total y x
  exact moved.eq_of_pairwise (fun x y _ _ first second => le_antisymm second first) descending other

/-! ### A system call -/

theorem mem_live {info : Nat → Syscall} {h : Nat} {row : Syscall} : row ∈ live info h ↔ ∃ i, i < h ∧ info i = row := by
  simp [live]

theorem live_map {info info' : Nat → Syscall} {h : Nat} {α : Type} {f : Syscall → α}
    (same : ∀ i, i < h → f (info' i) = f (info i)) :
    (live info' h).map f = (live info h).map f := by
  unfold live
  rw [List.map_map, List.map_map]
  exact List.map_congr_left fun i mem => same i (List.mem_range.mp mem)

theorem loc_seen (accounts : Accounts calls s.rows) (seen : name ∈ calls.map Prod.fst) :
    ∃ i, i < s.hInfo ∧ (s.info i).name = name ∧ loc s name = .ok (i, s) := by
  obtain ⟨row, mem, same⟩ := List.mem_map.mp ((accounts.names name).mpr seen)
  obtain ⟨j, inside, at_j⟩ := mem_live.mp mem
  have exists_row : ((List.range s.hInfo).find? fun i => name = (s.info i).name).isSome := by
    refine List.find?_isSome.mpr ⟨j, List.mem_range.mpr inside, ?_⟩
    rw [at_j, same]
    exact decide_eq_true rfl
  obtain ⟨i, found⟩ := Option.isSome_iff_exists.mp exists_row
  have named : name = (s.info i).name := by simpa using List.find?_some found
  refine ⟨i, List.mem_range.mp (List.mem_of_find?_eq_some found), named.symm, ?_⟩
  unfold loc
  rw [found]

theorem loc_unseen (accounts : Accounts calls s.rows) (unseen : name ∉ calls.map Prod.fst) :
    (List.range s.hInfo).find? (fun i => name = (s.info i).name) = none := by
  refine List.find?_eq_none.mpr fun i mem => ?_
  have row : s.info i ∈ s.rows := mem_live.mpr ⟨i, List.mem_range.mp mem, rfl⟩
  have other : name ≠ (s.info i).name := fun same =>
    unseen ((accounts.names name).mp (List.mem_map.mpr ⟨s.info i, row, same.symm⟩))
  simpa using other

/-- The table agrees with the log, and so do the rows behind the ones in use. -/
structure Kept (l : Log) (s : State) : Prop where
  accounts : Accounts l.calls s.rows
  next : (s.info s.hInfo).time = l.behind
  later : ∀ i, s.hInfo < i → (s.info i).time = 0

theorem count_seen {l : Log} (kept : Kept l s) (seen : name ∈ l.calls.map Prod.fst) :
    ∃ s', count s name dur = .ok s' ∧ Kept (l.add (.call name dur)) s' := by
  obtain ⟨i, inside, named, found⟩ := loc_seen kept.accounts seen
  refine ⟨_, by unfold count; rw [found]; rfl, ?_⟩
  have names : (live (update s.info i { s.info i with time := (s.info i).time + dur }) s.hInfo).map Syscall.name =
      s.rows.map Syscall.name := by
    apply live_map
    intro j _
    by_cases same : j = i
    · rw [same, update_self]
    · rw [update_of_ne same]
  refine ⟨⟨?_, fun other => ?_, fun row mem => ?_⟩, ?_, fun j high => ?_⟩
  · exact names ▸ kept.accounts.nodup
  · rw [State.rows, names, kept.accounts.names other]
    simp only [Log.add, List.map_append, List.map_cons, List.map_nil, List.mem_append, List.mem_singleton]
    exact ⟨.inl, fun either => either.elim id fun same => same ▸ seen⟩
  · obtain ⟨j, low, rfl⟩ := mem_live.mp mem
    dsimp only [Log.add]
    rw [total_concat]
    by_cases same : j = i
    · have own := kept.accounts.times _ (mem_live.mpr ⟨i, inside, rfl⟩)
      simp [same, named] at own ⊢
      exact own
    · have own := kept.accounts.times _ (mem_live.mpr ⟨j, low, rfl⟩)
      have different : name ≠ (s.info j).name := by
        intro equal
        have unique :=
          List.inj_on_of_nodup_map (List.map_map .. ▸ kept.accounts.nodup) (List.mem_range.mpr low)
          (List.mem_range.mpr inside)
        exact same (unique (equal.symm.trans named.symm))
      simp [update_of_ne same, different, own]
  · dsimp only [Log.add]
    rw [if_pos seen, update_of_ne (by omega)]
    exact kept.next
  · dsimp only at high ⊢
    rw [update_of_ne (by omega)]
    exact kept.later j high

theorem live_grown {info : Nat → Syscall} {h : Nat} {row : Syscall} :
    live (update info h row) (h + 1) = live info h ++ [row] := by
  unfold live
  rw [List.range_succ, List.map_append]
  congr 1
  · exact List.map_congr_left fun i mem => update_of_ne (Nat.ne_of_lt (List.mem_range.mp mem)) ..
  · simp

/-- A new name gets the row behind the ones in use, and the time that is in it. -/
theorem count_unseen {l : Log} (dur : ℚ) (kept : Kept l s) (unseen : name ∉ l.calls.map Prod.fst)
    (room : s.hInfo < infoSize)
    (short : name.length < nameSize) : ∃ s' color, count s name dur = .ok s' ∧ s'.rows = s.rows ++
    [⟨name, l.behind + dur, color⟩] ∧
      ∀ i, s'.hInfo ≤ i → (s'.info i).time = 0 := by
  have found : loc s name = .ok (s.hInfo, { s with
      info := update s.info s.hInfo { s.info s.hInfo with name, color := colorSet.getD s.colorP 0 }
      colorP := (s.colorP + 1) % colorNum
      hInfo := s.hInfo + 1 }) := by
    unfold loc
    rw [loc_unseen kept.accounts unseen]
    dsimp only
    rw [if_neg (by omega), if_neg (by omega)]
  refine ⟨_, colorSet.getD s.colorP 0, by unfold count; rw [found]; rfl, ?_, fun i high => ?_⟩
  · unfold State.rows
    dsimp only
    rw [update_idem, update_self, live_grown, ← kept.next]
  · dsimp only at high ⊢
    rw [update_of_ne (by omega), update_of_ne (by omega)]
    exact kept.later i high

theorem count_long {l : Log} (kept : Kept l s) (unseen : name ∉ l.calls.map Prod.fst) (room : s.hInfo < infoSize)
    (long : nameSize ≤ name.length) : count s name dur = .error .name := by
  unfold count loc
  rw [loc_unseen kept.accounts unseen]
  dsimp only
  rw [if_neg (by omega), if_pos long]
  rfl

theorem accounts_concat {behind : ℚ} {color : Nat} (accounts : Accounts calls rows)
    (unseen : name ∉ calls.map Prod.fst) :
    Accounts (calls ++ [(name, dur)]) (rows ++ [⟨name, behind + dur, color⟩]) ↔ behind = 0 := by
  have first : total (calls ++ [(name, dur)]) name =
      dur := by rw [total_concat, total_unseen unseen, if_pos rfl, zero_add]
  constructor
  · intro after
    have time := after.times ⟨name, behind + dur, color⟩ (by simp)
    dsimp only at time
    rw [first] at time
    exact add_eq_right.mp time
  · rintro rfl
    refine ⟨?_, fun other => ?_, fun row mem => ?_⟩
    · rw [List.map_append, List.nodup_append]
      refine ⟨accounts.nodup, List.nodup_singleton _, fun a mem b single => ?_⟩
      rw [List.mem_singleton.mp single]
      intro same
      have known : name ∈ rows.map Syscall.name := (show a = name from same) ▸ mem
      exact unseen ((accounts.names name).mp known)
    · rw [List.map_append, List.map_append, List.mem_append, List.mem_append, accounts.names other]
      rfl
    · rcases List.mem_append.mp mem with old | new
      · have different : name ≠ row.name := fun same =>
          unseen ((accounts.names name).mp (List.mem_map.mpr ⟨row, old, same.symm⟩))
        rw [total_concat, if_neg different, add_zero]
        exact accounts.times row old
      · rw [List.mem_singleton.mp new, first, zero_add]

/-! ### A redraw -/

theorem draw_kept {l : Log} (kept : Kept l s) (room : s.hInfo < infoSize) :
    ∃ s', drawGraph (sort s) = .ok s' ∧ Kept (l.add .draw) s' := by
  have moved := exchangeSort_rearranged (fun x y : Syscall => decide (x.time < y.time)) s.hInfo s.info
  have order : Preordered fun x y : Syscall => decide (x.time < y.time) := by
    refine ⟨fun x y less => ?_, fun x y z first second => ?_⟩
    · exact decide_eq_false (not_lt.mpr (of_decide_eq_true less).le)
    · exact decide_eq_false
        (not_lt.mpr ((not_lt.mp (of_decide_eq_false second)).trans (not_lt.mp (of_decide_eq_false first))))
  have accounts : Accounts l.calls (sort s).rows := kept.accounts.perm moved.perm
  have times := accounts.times_eq (exchangeSort_pairwise order s.hInfo s.info)
  have kind : (sort s).hInfo = s.hInfo := rfl
  refine ⟨_, by unfold drawGraph setOthers; dsimp only; rw [if_neg (by omega)], ⟨?_, ?_, fun i high => ?_⟩⟩
  · refine accounts.perm (List.Perm.of_eq ?_)
    unfold State.rows live
    exact List.map_congr_left fun i mem => update_of_ne (Nat.ne_of_lt (List.mem_range.mp mem)) ..
  · dsimp only
    rw [update_self, times]
    rfl
  · dsimp only at high ⊢
    rw [update_of_ne (Nat.ne_of_gt high)]
    exact (congrArg Syscall.time (moved.kept (Nat.le_of_lt high))).trans (kept.later i high)

/-! ### Runs -/

def parsed : List Event → List (List Byte × ℚ)
  | [] => []
  | .call name dur :: events => (name, dur) :: parsed events
  | .draw :: events => parsed events

theorem add_calls (l : Log) (e : Event) (events : List Event) :
    (l.add e).calls ++ parsed events = l.calls ++ parsed (e :: events) := by
  cases e <;> simp [Log.add, parsed]

theorem hInfo_eq {l : Log} (kept : Kept l s) : s.hInfo = (l.calls.map Prod.fst).dedup.length := by
  have lengths := kept.accounts.names_perm.length_eq
  rwa [List.length_map, State.rows, live, List.length_map, List.length_range] at lengths

/-- One step: the table agrees with the log afterwards if and only if the step is allowed. -/
theorem step_kept {l : Log} (kept : Kept l s) (e : Event) (room : s.hInfo < infoSize) :
    (Allowed l e → ∃ s', step s e = .ok s' ∧ Kept (l.add e) s') ∧
    (¬Allowed l e → ∀ s', step s e = .ok s' → ¬Accounts (l.add e).calls s'.rows) := by
  cases e with
  | draw => exact ⟨fun _ => draw_kept kept room, fun refused => absurd trivial refused⟩
  | call name dur =>
    by_cases seen : name ∈ l.calls.map Prod.fst
    · exact ⟨fun _ => count_seen kept seen, fun refused => absurd (fun unseen => absurd seen unseen) refused⟩
    by_cases long : nameSize ≤ name.length
    · refine ⟨fun allowed => absurd (allowed seen).1 (Nat.not_lt.mpr long), fun _ s' done => ?_⟩
      rw [step, count_long kept seen room long] at done
      cases done
    · obtain ⟨s', color, done, rows, later⟩ := count_unseen dur kept seen room (Nat.lt_of_not_le long)
      have exact_time : Accounts (l.add (.call name dur)).calls s'.rows ↔ l.behind = 0 :=
        rows ▸ accounts_concat kept.accounts seen
      constructor
      · intro allowed
        refine ⟨s', done, exact_time.mpr (allowed seen).2, ?_, fun i high => later i (Nat.le_of_lt high)⟩
        rw [Log.add, if_neg seen]
        exact later s'.hInfo (Nat.le_refl _)
      · intro refused t done' accounts
        obtain rfl := Except.ok.inj (done.symm.trans done')
        exact refused fun _ => ⟨Nat.lt_of_not_le long, exact_time.mp accounts⟩

theorem foldlM_kept {l : Log} (kept : Kept l s) (events : List Event)
    (few : ((l.calls ++ parsed events).map Prod.fst).dedup.length < 1023) :
    (∀ part, part <+: events → ∃ s', part.foldlM step s = .ok s' ∧ Accounts (l.calls ++ parsed part) s'.rows) ↔
    Clean l events := by
  induction events generalizing l s with
  | nil =>
    refine iff_of_true (fun part sub => ?_) trivial
    rw [List.prefix_nil.mp sub]
    exact ⟨s, rfl, by simpa [parsed] using kept.accounts⟩
  | cons e events ih =>
    have room : s.hInfo < infoSize := by
      have fewer : (l.calls.map Prod.fst).dedup.length ≤
          ((l.calls ++ parsed (e :: events)).map Prod.fst).dedup.length := by
        apply (List.nodup_dedup _).length_le_of_subset
        intro name mem
        rw [List.mem_dedup, List.map_append, List.mem_append]
        exact .inl (List.mem_dedup.mp mem)
      have size : infoSize = 1024 := rfl
      have rows := hInfo_eq kept
      omega
    have one := step_kept kept e room
    by_cases allowed : Allowed l e
    · obtain ⟨t, done, kept'⟩ := one.1 allowed
      rw [← add_calls] at few
      refine Iff.trans ?_ ((ih kept' few).trans (and_iff_right allowed).symm)
      constructor
      · intro every part sub
        obtain ⟨s', run, accounts⟩ := every (e :: part) ((List.prefix_cons_inj e).mpr sub)
        rw [List.foldlM_cons, done] at run
        exact ⟨s', run, (add_calls l e part).symm ▸ accounts⟩
      · intro every part sub
        rcases List.prefix_cons_iff.mp sub with rfl | ⟨part, rfl, sub⟩
        · exact ⟨s, rfl, by simpa [parsed] using kept.accounts⟩
        · obtain ⟨s', run, accounts⟩ := every part ((List.prefix_cons_inj e).mp sub)
          refine ⟨s', ?_, add_calls l e part ▸ accounts⟩
          rw [List.foldlM_cons, done]
          exact run
    · refine iff_of_false (fun every => ?_) fun clean => allowed clean.1
      obtain ⟨s', run, accounts⟩ := every [e] (by simp)
      have done : step s e = .ok s' := by
        rw [List.foldlM_cons] at run
        cases first : step s e with
        | error => rw [first] at run; cases run
        | ok t => rw [first] at run; exact run
      apply one.2 allowed s' done
      rw [← add_calls] at accounts
      simpa [parsed] using accounts

theorem init_kept : Kept ⟨[], 0⟩ init :=
  ⟨⟨List.nodup_nil, fun _ => Iff.rfl, nofun⟩, rfl, fun _ _ => rfl⟩

/-- **After every event the rows are the names seen with their totals, if and only if every new name is shorter than 64
bytes and comes when the last redraw has left nothing to "others".** -/
theorem run_accounts (events : List Event) (few : ((parsed events).map Prod.fst).dedup.length < 1023) :
    (∀ part, part <+: events → ∃ s, run part = .ok s ∧ Accounts (parsed part) s.rows) ↔ Clean ⟨[], 0⟩ events :=
  foldlM_kept init_kept events few

/-- A redraw that draws every row, and a new name behind it. -/
theorem run_accounts_sample :
    let events := [Event.call (cstr "read") 1, .draw, .call (cstr "write") 3, .call (cstr "read") 2]
    ∀ part, part <+: events → ∃ s, run part = .ok s ∧ Accounts (parsed part) s.rows := by
  refine (run_accounts _ (by decide)).mpr
    ⟨fun _ => ⟨by decide, rfl⟩, trivial, fun _ => ⟨by decide, ?_⟩, fun unseen => ?_, trivial⟩
  · decide +kernel
  · exact absurd (by decide) unseen

/-- One row has 99 percent of the time, so the redraw leaves 1 to "others". -/
def leaving : List Event := [.call (cstr "read") 99, .call (cstr "write") 1, .draw, .call (cstr "open") 5]

theorem run_accounts_counterexample :
    ¬∀ part, part <+: leaving → ∃ s, run part = .ok s ∧ Accounts (parsed part) s.rows := by
  intro every
  obtain ⟨s, done, accounts⟩ := every leaving (List.prefix_refl _)
  have rows : (run leaving).map State.rows =
      .ok [⟨cstr "read", 99, 41⟩, ⟨cstr "write", 1, 42⟩, ⟨cstr "open", 6, 43⟩] := by
    decide +kernel
  rw [done] at rows
  have found : ⟨cstr "open", 6, 43⟩ ∈ s.rows := by
    rw [show s.rows = _ from Except.ok.inj rows]
    simp
  have time := accounts.times _ found
  exact absurd time (by decide +kernel)

end OsLabs.Sperf

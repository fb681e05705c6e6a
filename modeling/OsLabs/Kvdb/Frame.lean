import OsLabs.Kvdb.Durable

/-!
# What a put does to other keys, and what later calls do to its record

The bytes of a key and a value stand unescaped between those that delimit them. A file
of records that are read back as they were written stays one, whatever end of a torn
record a session finds.
-/

namespace OsLabs.Kvdb

structure Session where
  file : Stream
  opened : Bool

inductive SessionCall where
  | open
  | put (key value : List Byte)
  | get (key : List Byte) (value : Option (List Byte))
  | close

/-- A call that returned, on a file that satisfies `ok` and with a key and a value that are `good`. -/
inductive SessionStep (good : List Byte → List Byte → Prop) (ok : List Byte → Prop) :
    Session → SessionCall → Session → Prop
  | open {s : Session} {f : Stream} {fuel : Nat} (opened : s.opened = false) (length : ok s.file.bytes)
      (enough : s.file.bytes.length < fuel) (done : kvdbOpen fuel s.file.bytes = some f) :
      SessionStep good ok s .open ⟨f, true⟩
  | put {s : Session} {key value : List Byte} {f : Stream} {fuel : Nat} (opened : s.opened = true)
      (length : ok s.file.bytes) (allowed : good key value) (enough : s.file.bytes.length < fuel)
      (done : kvdbPut fuel s.file key value = some f) : SessionStep good ok s (.put key value) ⟨f, true⟩
  | get {s : Session} {key : List Byte} {value : Option (List Byte)} {f : Stream} {fuel : Nat}
      (opened : s.opened = true)
      (length : ok s.file.bytes) (enough : s.file.bytes.length < fuel)
      (done : kvdbGet fuel s.file key = some (value, f)) : SessionStep good ok s (.get key value) ⟨f, true⟩
  | close {s : Session} {f : Stream} {fuel : Nat} (opened : s.opened = true) (length : ok s.file.bytes)
      (enough : s.file.bytes.length < fuel) (done : checkJournal fuel s.file = some f) :
      SessionStep good ok s .close ⟨f, false⟩

def sessions (good : List Byte → List Byte → Prop) (ok : List Byte → Prop) (Start : Session → Prop) :
    Machine Session SessionCall where
  Init := Start
  Step := SessionStep good ok

/-- A file of good records and the end of a torn one, not opened yet. -/
def Stored (good : List Byte → List Byte → Prop) (s : Session) : Prop :=
  s.opened = false ∧ s.file.Fits ∧ ∃ records : List Record, (∀ r ∈ records, good r.1 r.2) ∧
    Longest s.file.bytes (journal records)

/-- After a put, a get of another key returns what it returned before, within the memory it was given, and no later call
removes the record. -/
def Framed (good : List Byte → List Byte → Prop) (ok : List Byte → Prop) (s : Session) : Prop :=
  ∀ key value f, SessionStep good ok s (.put key value) ⟨f, true⟩ →
    (∀ k, k ≠ key → ok f.bytes → ∀ fuel, s.file.bytes.length < fuel → f.bytes.length < fuel →
      ∃ found g g', kvdbGet fuel s.file k = some (found, g) ∧ kvdbGet fuel f k = some (found, g') ∧ g.Fits ∧ g'.Fits) ∧
    ∀ t, (sessions good ok (· = ⟨f, true⟩)).Reachable t → f.bytes <+: t.file.bytes

/-- The length at which `check_journal` cuts is an `int`, or it is that of the file and negative as one. -/
def CutFits (bytes : List Byte) : Prop :=
  ∀ kept, Longest bytes kept → kept.length < 2 ^ 31 ∨ kept = bytes ∧ 2 ^ 31 ≤ kept.length % 2 ^ 32

variable {records : List Record} {s t : Session} {f : Stream} {key value : List Byte} {fuel : Nat} {call : SessionCall}

/-- The records of the file start with the given ones, and all are read back. -/
structure Begins (records : List Record) (s : Session) : Prop where
  fits : s.file.Fits
  content : ∃ more, (∀ r ∈ records ++ more, Storable r.1 r.2) ∧ Longest s.file.bytes (journal (records ++ more))

theorem storable_plain (stored : ∀ r ∈ records, Storable r.1 r.2) : ∀ r ∈ records, Plain r.1 ∧ Plain r.2 :=
  fun r mem => ⟨(stored r mem).word.plain, (stored r mem).readable.plain⟩

theorem longest_journal (stored : ∀ r ∈ records, Storable r.1 r.2) : Longest (journal records) (journal records) :=
  longest_self (journal_consistent (storable_plain stored))

theorem storable_concat (stored : ∀ r ∈ records, Storable r.1 r.2) (new : Storable key value) :
    ∀ r ∈ records ++ [(key, value)], Storable r.1 r.2 := by
  intro r mem
  rcases List.mem_append.mp mem with before | here
  · exact stored r before
  · rw [List.mem_singleton.mp here]
    exact new

/-- `check_journal` leaves the records and nothing else. -/
theorem checkJournal_records (longest : Longest f.bytes (journal records)) (length : CutFits f.bytes)
    (enough : f.bytes.length < fuel) :
    ∃ f', checkJournal fuel f = some f' ∧ f'.bytes = journal records ∧ (f.Fits → f'.Fits) := by
  obtain ⟨f', kept, done, longest', bytes, stores, -⟩ := checkJournal_cut f enough
  obtain rfl := longest.unique longest'
  refine ⟨f', done, bytes.trans ((cut_eq_iff longest.isPrefix).mpr (length _ longest)), fun fits => ?_⟩
  unfold Stream.Fits
  rw [stores]
  exact fits

theorem kvdbGet_records (stored : ∀ r ∈ records, Storable r.1 r.2) (longest : Longest f.bytes (journal records))
    (length : CutFits f.bytes) (enough : f.bytes.length < fuel) :
    ∃ f', kvdbGet fuel f key = some ((latest key records).map readBack, f') ∧ f'.bytes = journal records ∧
      (f.Fits → f'.Fits) := by
  obtain ⟨f₁, checked, bytes, fits⟩ := checkJournal_records longest length enough
  have at₁ : f₁.seekEnd.At (journal records) [] := bytes ▸ f₁.seekEnd_at
  have moved := f₁.seekEnd_moved
  obtain ⟨f₂, found, sound⟩ := @getLoop_stored _ key _ records fuel stored at₁
    (Nat.lt_of_le_of_lt longest.isPrefix.length_le enough)
  refine ⟨f₂, ?_, sound.bytes.trans (moved.bytes.trans bytes), fun before => sound.fits ?_⟩
  · simp only [kvdbGet, checked, Option.bind_eq_bind, Option.bind_some, found]
  · unfold Stream.Fits
    rw [moved.stores]
    exact fits before

theorem kvdbPut_records (longest : Longest f.bytes (journal records)) (length : CutFits f.bytes)
    (enough : f.bytes.length < fuel) :
    ∃ f', kvdbPut fuel f key value = some f' ∧ f'.bytes = journal (records ++ [(key, value)]) ∧ (f.Fits → f'.Fits) := by
  obtain ⟨f₁, checked, bytes, fits⟩ := checkJournal_records longest length enough
  have moved := f₁.seekEnd_moved
  refine ⟨f₁.seekEnd.put (record key value), ?_, ?_, fun before => ?_⟩
  · simp only [kvdbPut, checked, Option.bind_eq_bind, Option.bind_some]
  · rw [Stream.put_end (by simp [f₁.seekEnd_at.pos, moved.bytes]), moved.bytes, bytes, journal_append]
  · unfold Stream.Fits
    rw [show (f₁.seekEnd.put (record key value)).stores = f₁.stores from moved.stores]
    exact fits before

/-! ### Runs -/

theorem begins_step (h : Begins records s) (step : SessionStep Storable CutFits s call t) : Begins records t := by
  obtain ⟨fits, more, stored, longest⟩ := h
  have self := longest_journal stored
  cases step with
  | «open» opened length enough done =>
    obtain ⟨f', checked, bytes, fits'⟩ := @checkJournal_records _ (Stream.opened s.file.bytes) _ longest length enough
    obtain rfl := Option.some.inj (checked.symm.trans done)
    exact ⟨fits' (by simp [Stream.Fits, Stream.opened]), more, stored, bytes ▸ self⟩
  | @put key value f fuel opened length allowed enough done =>
    obtain ⟨f', put, bytes, fits'⟩ := @kvdbPut_records _ s.file key value _ longest length enough
    obtain rfl := Option.some.inj (put.symm.trans done)
    have all := storable_concat stored allowed
    have self := longest_journal all
    rw [List.append_assoc] at all self bytes
    exact ⟨fits' fits, more ++ [(key, value)], all, bytes ▸ self⟩
  | get opened length enough done =>
    obtain ⟨f', got, bytes, fits'⟩ := kvdbGet_records stored longest length enough
    obtain ⟨-, rfl⟩ := Prod.mk.inj (Option.some.inj (got.symm.trans done))
    exact ⟨fits' fits, more, stored, bytes ▸ self⟩
  | close opened length enough done =>
    obtain ⟨f', checked, bytes, fits'⟩ := checkJournal_records longest length enough
    obtain rfl := Option.some.inj (checked.symm.trans done)
    exact ⟨fits' fits, more, stored, bytes ▸ self⟩

theorem begins_framed (h : Begins [] s) : Framed Storable CutFits s := by
  obtain ⟨fits, records, stored, longest⟩ := h
  rw [List.nil_append] at stored longest
  intro key value f step
  cases step with
  | @put _ _ _ fuel opened length allowed enough done =>
    obtain ⟨f', put, bytes, fits'⟩ := @kvdbPut_records _ s.file key value _ longest length enough
    obtain rfl := Option.some.inj (put.symm.trans done)
    have all := storable_concat stored allowed
    have self := longest_journal all
    refine ⟨fun k other length' fuel' enough' enough'' => ?_, fun t run => ?_⟩
    · obtain ⟨g, got, -, gFits⟩ := @kvdbGet_records records s.file k fuel' stored longest length enough'
      obtain ⟨g', got', -, gFits'⟩ := @kvdbGet_records _ f' k fuel' all (bytes ▸ self) length' enough''
      rw [latest_append, if_neg (Ne.symm other)] at got'
      exact ⟨_, g, g', got, got', gFits fits, gFits' (fits' fits)⟩
    · have start : Begins (records ++ [(key, value)]) ⟨f', true⟩ :=
        ⟨fits' fits, [], by simpa using all, by simpa [bytes] using self⟩
      have base (s : Session) (init : s = ⟨f', true⟩) : Begins (records ++ [(key, value)]) s := init ▸ start
      obtain ⟨-, more, -, longest'⟩ := run.induct (Begins (records ++ [(key, value)])) base fun _ _ _ => begins_step
      rw [bytes]
      exact (journal_concat _ more ▸ List.prefix_append ..).trans longest'.isPrefix

/-- While all keys and values are read back as they were written, and the lengths of the file fit. -/
theorem reachable_framed (run : (sessions Storable CutFits (Stored Storable)).Reachable s) :
    Framed Storable CutFits s := by
  refine begins_framed (run.induct (Begins []) (fun s init => ?_) fun _ _ _ => begins_step)
  obtain ⟨-, fits, records, stored, longest⟩ := init
  exact ⟨fits, records, stored, longest⟩

/-- Keys and values as the code takes them. -/
def CStrings (key value : List Byte) : Prop := 0 ∉ key ∧ 0 ∉ value

def noFile : Session := ⟨Stream.opened [], false⟩

theorem longest_empty : Longest [] (journal []) := longest_self (.inl rfl)

theorem noFile_stored (good : List Byte → List Byte → Prop) : Stored good noFile :=
  ⟨rfl, by simp [noFile, Stream.Fits, Stream.opened], [], nofun, longest_empty⟩

theorem cutFits_empty : CutFits [] := by
  intro kept longest
  rw [List.prefix_nil.mp longest.isPrefix]
  decide

/-- The value "1" is put under the key "a". -/
theorem reachable_framed_sample : ∃ s, s.file.bytes = journal [([97], [49])] ∧ Framed Storable CutFits s := by
  have key : Word [97] := ⟨List.cons_ne_nil _ _, List.forall_mem_singleton.mpr ⟨rfl, by decide⟩⟩
  have value : Word [49] := ⟨List.cons_ne_nil _ _, List.forall_mem_singleton.mpr ⟨rfl, by decide⟩⟩
  have start := Machine.Reachable.init (M := sessions Storable CutFits (Stored Storable)) (noFile_stored Storable)
  have opened := start.step (@SessionStep.open _ _ _ _ 1 rfl cutFits_empty Nat.zero_lt_one rfl)
  have put :=
    opened.step
    (@SessionStep.put _ _ _ [97] [49] _ 8 rfl cutFits_empty ⟨key, value.readable, by decide⟩ (by decide) rfl)
  exact ⟨_, rfl, reachable_framed put⟩

/-- The record of the key "a b" has two blanks, and the next call removes it; that of "a\tb" is read as one of "a". -/
theorem framed_counterexample : ∃ s, (sessions CStrings (fun _ => True) (Stored CStrings)).Reachable s ∧
    ¬Framed CStrings (fun _ => True) s ∧
    ∃ f g g', kvdbPut 8 s.file [97, 9, 98] [99] = some f ∧ kvdbGet 8 s.file [97] = some (none, g) ∧
      kvdbGet 8 f [97] = some (some [99], g') := by
  refine ⟨_, .step (.init (noFile_stored _)) (@SessionStep.open _ _ _ _ 1 rfl trivial Nat.zero_lt_one rfl),
    fun framed => ?_,
    _, _, _, rfl, rfl, rfl⟩
  obtain ⟨-, stays⟩ :=
    framed [97, 32, 98] [99] _ (@SessionStep.put _ _ _ _ _ _ 8 rfl trivial (by simp [CStrings]) (by decide) rfl)
  have gone := stays _ (.step (.init rfl) (@SessionStep.get _ _ _ [97] _ _ 8 rfl trivial (by decide) rfl))
  exact absurd gone (by decide)

end OsLabs.Kvdb

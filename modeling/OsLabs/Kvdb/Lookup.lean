import OsLabs.Data.Machine
import OsLabs.Kvdb.Journal

/-!
# A get finds the latest put

The file is the journal of the puts so far. `kvdb_get` reads it backwards, one
record a round, and each round ends exactly where the record starts.
-/

namespace OsLabs.Kvdb

variable {f : Stream} {key value after k : List Byte} {records : List (List Byte × List Byte)} {fuel : Nat}

/-- A key or a value: a C string that is not empty and has no white space. -/
def Word (w : List Byte) : Prop := w ≠ [] ∧ ∀ x ∈ w, isspace x = false ∧ x ≠ 0

theorem Word.plain (h : Word key) : Plain key := by
  constructor <;> intro mem <;> have := (h.2 _ mem).1 <;> revert this <;> decide

theorem Word.cstr (h : Word key) : cstr key = key := by
  unfold Kvdb.cstr
  rw [List.takeWhile_eq_self_iff]
  intro x hx
  simpa using (h.2 x hx).2

/-- A value that `%s` reads to its last byte: a word, and in front of it white space at which no scan stops. -/
def Readable (value : List Byte) : Prop :=
  ∃ space word, value = space ++ word ∧ (∀ x ∈ space, isspace x ∧ x ≠ blank ∧ x ≠ newline) ∧ Word word

/-- What `%s` reads of a value. -/
def readBack (value : List Byte) : List Byte := value.dropWhile isspace

/-- A key and a value that a get reads back, with lengths that are an `int`. -/
structure Storable (key value : List Byte) : Prop where
  word : Word key
  readable : Readable value
  small : key.length + 1 < 2 ^ 31 ∧ value.length + 1 < 2 ^ 31

theorem Word.readable (h : Word value) : Readable value := ⟨[], value, rfl, nofun, h⟩

theorem readBack_space {space word : List Byte} (hs : ∀ x ∈ space, isspace x) (hw : Word word) :
    readBack (space ++ word) = word := by
  obtain ⟨x, xs, rfl⟩ := List.exists_cons_of_ne_nil hw.1
  have hx := (hw.2 x List.mem_cons_self).1
  rw [readBack, List.dropWhile_append_of_pos hs]
  simp [hx]

theorem Word.readBack (h : Word value) : readBack value = value := @readBack_space [] value nofun h

theorem Readable.plain (h : Readable value) : Plain value := by
  obtain ⟨space, word, rfl, hs, hw⟩ := h
  constructor <;> intro mem <;> rcases List.mem_append.mp mem with inSpace | inWord
  · exact (hs _ inSpace).2.1 rfl
  · exact hw.plain.1 inWord
  · exact (hs _ inSpace).2.2 rfl
  · exact hw.plain.2 inWord

def latest (key : List Byte) (records : List (List Byte × List Byte)) : Option (List Byte) :=
  (records.reverse.find? fun r => r.1 = key).map Prod.snd

theorem latest_append : latest key (records ++ [(k, value)]) = if k = key then some value else latest key records := by
  unfold latest
  simp only [List.reverse_append, List.reverse_singleton, List.singleton_append, List.find?_cons]
  by_cases h : k = key <;> simp [h]

theorem foldr_countByte {stop : Byte} {run : List Byte} (small : run.length + 1 < 2 ^ 31) :
    countByte stop (run.foldr countByte 0) = run.length + 1 := by
  have counted : run.foldr countByte 0 = toInt run.length := by
    induction run with
    | nil => rfl
    | cons x run ih =>
      rw [List.foldr_cons, ih (by simp at small; omega), countByte, toInt_add, List.length_cons]
      rfl
  rw [counted, countByte, toInt_add]
  exact toInt_small small

/-- The trace stays good: seeks inside the file, and words that fit the memory they were read into. -/
structure Sound (f f' : Stream) : Prop where
  bytes : f'.bytes = f.bytes
  inside : f.Inside → f'.Inside
  fits : f.Fits → f'.Fits

theorem Sound.refl (f : Stream) : Sound f f := ⟨rfl, id, id⟩

theorem Sound.trans {f f' f'' : Stream} (h : Sound f f') (h' : Sound f' f'') : Sound f f'' :=
  ⟨h'.bytes.trans h.bytes, h'.inside ∘ h.inside, h'.fits ∘ h.fits⟩

theorem Sound.of_moved {f f' : Stream} (h : f.Moved f') : Sound f f' :=
  ⟨h.bytes, h.inside, fun fits => by unfold Stream.Fits; rw [h.stores]; exact fits⟩

/-- One field: back to the white space before it, forward over it, and back again. -/
theorem field_read {pre space word : List Byte} {s t flag : Byte} (hw : Word word) (blanks : ∀ x ∈ space, isspace x)
    (hs : isspace s) (ht : isspace t) (h : f.At (pre ++ s :: (space ++ word)) (t :: after)) (out : s ∉ space ++ word)
    (going : flag ≠ s) (small : (space ++ word).length + 1 < 2 ^ 31) (enough : (space ++ word).length + 1 < fuel) :
    ∃ f₁ f₂, scanBack s countByte fuel f flag 0 = some (s, ((space ++ word).length : Int) + 1, f₁) ∧
      fscanfVal f₁ (((space ++ word).length : Int) + 1) = (some word, f₂) ∧
      f₂.At pre (s :: (space ++ word) ++ t :: after) ∧ Sound f f₂ := by
  obtain ⟨f₁, found, at₁, moved⟩ := scanBack_found countByte 0 h out going enough
  rw [foldr_countByte small] at found
  have front : ∀ x ∈ s :: space, isspace x := List.forall_mem_cons.mpr ⟨hs, blanks⟩
  have read := @Stream.At.getWord f₁ pre after (s :: space) word t (((space ++ word).length : Int) + 1)
    (by simpa using at₁) front ht (fun x hx => (hw.2 x hx).1) hw.1
  let f₂ : Stream := { f₁ with
    pos := pre.length + (s :: space).length + word.length
    stores := (word.length + 1, ((space ++ word).length : Int) + 1) :: f₁.stores }
  have back : f₂.seekCur (-(((space ++ word).length : Int) + 1)) = f₂.seek pre.length := by
    simp only [Stream.seekCur, f₂, List.length_append, List.length_cons]
    congr 1
    push_cast
    omega
  refine ⟨f₁, f₂.seek pre.length, found, ?_, Stream.seek_at at₁.bytes rfl, ?_⟩
  · simp only [fscanfVal, read]
    rw [← back]
  · have moved₂ : f₂.Moved (f₂.seek pre.length) := Stream.seek_moved (by simp [f₂, at₁.bytes])
    have stored : Sound f₁ f₂ := by
      refine ⟨rfl, id, fun fits store mem => ?_⟩
      rcases List.mem_cons.mp mem with rfl | mem
      · simp only [List.length_append]
        push_cast
        omega
      · exact fits store mem
    exact ((Sound.of_moved moved).trans stored).trans (.of_moved moved₂)

theorem getLoop_stored (stored : ∀ r ∈ records, Storable r.1 r.2) (h : f.At (journal records) after)
    (enough : (journal records).length < fuel) :
    ∃ f', getLoop fuel f key = some ((latest key records).map readBack, f') ∧ Sound f f' := by
  induction records using List.reverseRecOn generalizing f after fuel with
  | nil =>
    cases fuel with
    | zero => cases enough
    | succ fuel =>
      have head : ishead f = true := by simp [ishead, h.pos, journal]
      exact ⟨f, by simp [getLoop, head, latest], .refl f⟩
  | append_singleton records r ih =>
    cases fuel with
    | zero => cases enough
    | succ fuel =>
      obtain ⟨k, value⟩ := r
      obtain ⟨hk, hv, small⟩ := stored (k, value) (by simp)
      have plain := hv.plain
      obtain ⟨space, word, rfl, hs, hw⟩ := hv
      have length : (journal (records ++ [(k, space ++ word)])).length =
          (journal records).length + k.length + (space ++ word).length + 3 := by
        rw [journal_append]; simp [record]; omega
      rw [length] at enough
      rw [journal_append] at h
      have notHead : ishead f = false := by simp [ishead, h.pos, record]
      -- the last newline of the record
      obtain ⟨f₀, last, at₀, moved⟩ :=
        @fscanfBak_at f ((journal records ++ newline :: k) ++ blank :: (space ++ word)) after
        newline (by simpa [record] using h) 0
      obtain ⟨f₁, f₂, scanV, readV, at₂, sound₂⟩ := field_read hw (fun x hx => (hs x hx).1) (by decide) (by decide) at₀
        plain.1 (show (0 : Byte) ≠ blank by decide) small.2 (show _ < fuel by omega)
      have none : ∀ x ∈ ([] : List Byte), isspace x := fun x mem => absurd mem List.not_mem_nil
      obtain ⟨f₃, f₄, scanK, readK, at₄, sound₄⟩ :=
        @field_read f₂ _ fuel _ [] k newline blank 0 hk none (by decide) (by decide)
        (show f₂.At (journal records ++ newline :: k) _ from at₂) hk.plain.2 (show (0 : Byte) ≠ newline by decide)
        small.1 (show _ < fuel by simp only [List.nil_append]; omega)
      have sound := ((Sound.of_moved moved).trans sound₂).trans sound₄
      have found : readBack (space ++ word) = word := readBack_space (fun x hx => (hs x hx).1) hw
      have round : getLoop (fuel + 1) f key = if k = key then some (some word, f₄) else getLoop fuel f₄ key := by
        simp only [getLoop, notHead, last, scanV, readV, scanK, readK, hk.cstr, hw.cstr, Option.bind_eq_bind,
          Option.bind_some]
        rfl
      rw [round, latest_append]
      split
      · exact ⟨f₄, by rw [Option.map_some, found], sound⟩
      · obtain ⟨f', eq, sound'⟩ := @ih f₄ _ fuel (fun r hr => stored r (List.mem_append_left _ hr)) at₄ (by omega)
        exact ⟨f', eq, sound.trans sound'⟩

theorem latest_mem (found : latest key records = some value) : (key, value) ∈ records := by
  unfold latest at found
  obtain ⟨r, there, rfl⟩ := Option.map_eq_some_iff.mp found
  have same : r.1 = key := by simpa using List.find?_some there
  rw [← same]
  exact List.mem_reverse.mp (List.mem_of_find?_eq_some there)

theorem length_record_le (mem : (key, value) ∈ records) : key.length + value.length + 3 ≤ (journal records).length := by
  have part : (record key value).Sublist (journal records) :=
    List.sublist_flatten_of_mem (List.mem_map.mpr ⟨_, mem, rfl⟩)
  have size : (record key value).length = key.length + value.length + 3 := by
    simp [record]
    omega
  rw [← size]
  exact part.length_le

theorem getLoop_latest (words : ∀ r ∈ records, Word r.1 ∧ Word r.2) (h : f.At (journal records) after)
    (small : (journal records).length < 2 ^ 31) (enough : (journal records).length < fuel) :
    ∃ f', getLoop fuel f key = some (latest key records, f') ∧ Sound f f' := by
  have stored : ∀ r ∈ records, Storable r.1 r.2 := by
    intro r mem
    have le := length_record_le mem
    exact ⟨(words r mem).1, (words r mem).2.readable, by omega⟩
  obtain ⟨f', found, sound⟩ := @getLoop_stored f key after records fuel stored h enough
  have same : (latest key records).map readBack = latest key records := by
    cases value : latest key records with
    | none => rfl
    | some v => exact congrArg some (words _ (latest_mem value)).2.readBack
  exact ⟨f', same ▸ found, sound⟩

/-! ### Runs -/

theorem words_plain (words : ∀ r ∈ records, Word r.1 ∧ Word r.2) : ∀ r ∈ records, Plain r.1 ∧ Plain r.2 :=
  fun r hr => ⟨(words r hr).1.plain, (words r hr).2.plain⟩

/-- `check_journal` keeps a journal whose length is an `int`, or negative as one. -/
theorem checkJournal_keeps (words : ∀ r ∈ records, Word r.1 ∧ Word r.2) (h : f.bytes = journal records)
    (keeps : f.bytes.length < 2 ^ 31 ∨ 2 ^ 31 ≤ f.bytes.length % 2 ^ 32) (enough : f.bytes.length < fuel) :
    ∃ f', checkJournal fuel f = some f' ∧ Sound f f' := by
  obtain ⟨f', kept, eq, longest, bytes, stores, inside⟩ := checkJournal_cut f enough
  have whole : kept = f.bytes := longest.unique (longest_self (h ▸ journal_consistent (words_plain words)))
  refine ⟨f', eq, ?_, inside, fun fits => by unfold Stream.Fits; rw [stores]; exact fits⟩
  rw [bytes]
  have kept' := (cut_eq_iff longest.isPrefix).mpr (by rw [whole]; exact keeps.imp id fun h => ⟨rfl, h⟩)
  exact kept'.trans whole

/-- The state of a handle: the open file and the puts so far. -/
abbrev Database := Stream × List (List Byte × List Byte)

inductive Call where
  | put (key value : List Byte)
  | get (key : List Byte) (value : Option (List Byte))

/-- One call that returned, on a file whose length satisfies `ok`. -/
inductive Step (ok : Nat → Prop) : Database → Call → Database → Prop where
  | put {f f' : Stream} {records : List (List Byte × List Byte)} {key value : List Byte} {fuel : Nat}
      (length : ok f.bytes.length) (hk : Word key) (hv : Word value) (enough : f.bytes.length < fuel)
      (returned : kvdbPut fuel f key value = some f') :
      Step ok (f, records) (.put key value) (f', records ++ [(key, value)])
  | get {f f' : Stream} {records : List (List Byte × List Byte)} {key : List Byte} {value : Option (List Byte)}
      {fuel : Nat} (length : ok f.bytes.length) (hk : Word key) (enough : f.bytes.length < fuel)
      (returned : kvdbGet fuel f key = some (value, f')) :
      Step ok (f, records) (.get key value) (f', records)

def database (ok : Nat → Prop) : Machine Database Call where
  Init s := s = (Stream.opened [], [])
  Step := Step ok

/-- The file is the journal of the puts, and the calls so far were sound. -/
structure Inv (s : Database) : Prop where
  words : ∀ r ∈ s.2, Word r.1 ∧ Word r.2
  bytes : s.1.bytes = journal s.2
  inside : s.1.Inside
  fits : s.1.Fits

/-- A get returns the value of the latest put, after seeks inside the file and words that fit. -/
def Right (ok : Nat → Prop) (s : Database) : Prop :=
  ok s.1.bytes.length → ∀ key, Word key → ∀ fuel, s.1.bytes.length < fuel →
    ∃ f, kvdbGet fuel s.1 key = some (latest key s.2, f) ∧ f.Inside ∧ f.Fits

theorem Inv.get {s : Database} (I : Inv s) (small : s.1.bytes.length < 2 ^ 31) (enough : s.1.bytes.length < fuel) :
    ∃ f, kvdbGet fuel s.1 key = some (latest key s.2, f) ∧ Sound s.1 f := by
  obtain ⟨f₁, checked, sound₁⟩ := checkJournal_keeps I.words I.bytes (.inl small) enough
  have at₁ : f₁.seekEnd.At (journal s.2) [] := by
    rw [← I.bytes, ← sound₁.bytes]; exact f₁.seekEnd_at
  obtain ⟨f, found, sound⟩ := @getLoop_latest _ key _ _ _ I.words at₁ (by rwa [← I.bytes])
    (show _ < fuel by rwa [← I.bytes])
  exact ⟨f, by simp [kvdbGet, checked, found], (sound₁.trans (.of_moved f₁.seekEnd_moved)).trans sound⟩

theorem Inv.put {s : Database} (I : Inv s) (hk : Word key) (hv : Word value)
    (keeps : s.1.bytes.length < 2 ^ 31 ∨ 2 ^ 31 ≤ s.1.bytes.length % 2 ^ 32) (enough : s.1.bytes.length < fuel) :
    ∃ f, kvdbPut fuel s.1 key value = some f ∧ Inv (f, s.2 ++ [(key, value)]) := by
  obtain ⟨f₁, checked, sound₁⟩ := checkJournal_keeps I.words I.bytes keeps enough
  have sound := sound₁.trans (.of_moved f₁.seekEnd_moved)
  refine ⟨f₁.seekEnd.put (record key value), by simp [kvdbPut, checked], fun r hr => ?_, ?_, sound.inside I.inside,
    sound.fits I.fits⟩
  · rcases List.mem_append.mp hr with hr | hr
    · exact I.words r hr
    · rw [List.mem_singleton.mp hr]; exact ⟨hk, hv⟩
  · rw [Stream.put_end (by simp [f₁.seekEnd_at.pos, f₁.seekEnd_moved.bytes]), sound.bytes, I.bytes, journal_append]

theorem step_inv {s t : Database} {call : Call} (I : Inv s) (step : Step (· < 2 ^ 31) s call t) : Inv t := by
  cases step with
  | put length hk hv enough returned =>
    obtain ⟨f, eq, I'⟩ := I.put hk hv (.inl length) enough
    obtain rfl := Option.some.inj (eq.symm.trans returned)
    exact I'
  | get length hk enough returned =>
    obtain ⟨f, eq, sound⟩ := I.get length enough
    obtain ⟨-, rfl⟩ := Prod.mk.inj (Option.some.inj (eq.symm.trans returned))
    exact ⟨I.words, sound.bytes.trans I.bytes, sound.inside I.inside, sound.fits I.fits⟩

theorem opened_inv : Inv (Stream.opened [], []) where
  words := by simp
  bytes := rfl
  inside := by simp [Stream.Inside, Stream.opened]
  fits := by simp [Stream.Fits, Stream.opened]

/-- While the file has fewer than 2^31 bytes whenever a call is made, every get is right. -/
theorem reachable_right {s : Database} (run : (database (· < 2 ^ 31)).Reachable s) : Right (· < 2 ^ 31) s := by
  have base (s : Database) (init : s = (Stream.opened [], [])) : Inv s := init ▸ opened_inv
  have I : Inv s := run.induct Inv base fun _ _ _ => step_inv
  intro small key _ fuel enough
  obtain ⟨f, eq, sound⟩ := I.get small enough
  exact ⟨f, eq, sound.inside I.inside, sound.fits I.fits⟩

theorem sampleRecord_word : Word sampleRecord.1 ∧ Word sampleRecord.2 := by
  simp [Word, sampleRecord, isspace]

/-- The file after the first put. -/
theorem reachable_right_sample : ∃ f, Right (· < 2 ^ 31) (f, [sampleRecord]) := by
  obtain ⟨f, eq, -⟩ := opened_inv.put sampleRecord_word.1 sampleRecord_word.2 (.inl (by decide))
    (show (Stream.opened []).bytes.length < 1 by decide)
  have run := Machine.Reachable.step (.init rfl) (show (database (· < 2 ^ 31)).Step _ _ _ from
    @Step.put _ _ _ [] _ _ _ (by decide) sampleRecord_word.1 sampleRecord_word.2 (by decide) eq)
  exact ⟨f, reachable_right run⟩

/-- After `n` puts of the eight bytes, when none of them cut the file. -/
theorem reach_replicate (n : Nat) (small : n ≤ 2 ^ 29) :
    ∃ f, (database fun _ => True).Reachable (f, List.replicate n sampleRecord) ∧
    Inv (f, List.replicate n sampleRecord) := by
  induction n with
  | zero => exact ⟨Stream.opened [], .init rfl, opened_inv⟩
  | succ n ih =>
    obtain ⟨f, run, I⟩ := ih (by omega)
    have length : f.bytes.length = 8 * n := by
      have bytes := I.bytes
      simp only at bytes
      rw [bytes, length_journal_replicate]
    obtain ⟨f', eq, I'⟩ := I.put sampleRecord_word.1 sampleRecord_word.2 (by simp only [length]; omega)
      (Nat.lt_succ_self f.bytes.length)
    rw [List.replicate_succ']
    exact ⟨f', run.step (.put trivial sampleRecord_word.1 sampleRecord_word.2 (Nat.lt_succ_self _) eq), I'⟩

/-- A journal of 2^32 bytes is emptied, so that a get returns `NULL` for a key that was put. -/
theorem get_emptied {n : Nat} (big : 8 * (n + 1) = 2 ^ 32) (I : Inv (f, List.replicate (n + 1) sampleRecord)) :
    ¬ Right (fun _ => True) (f, List.replicate (n + 1) sampleRecord) := by
  intro right
  have bytes : f.bytes = journal (List.replicate (n + 1) sampleRecord) := I.bytes
  have length : f.bytes.length = 2 ^ 32 := by rw [bytes, length_journal_replicate, big]
  have enough := Nat.lt_succ_self f.bytes.length
  obtain ⟨f₁, kept, checked, longest, bytes₁, -⟩ := checkJournal_cut f enough
  have whole : kept = f.bytes := longest.unique (longest_self (bytes ▸ journal_consistent (words_plain I.words)))
  have empty : f₁.bytes = [] := by
    rw [bytes₁, whole, length]
    rfl
  have head : ishead f₁.seekEnd = true := by simp [ishead, f₁.seekEnd_at.pos, empty]
  obtain ⟨f₂, found, -⟩ := right trivial _ sampleRecord_word.1 _ enough
  rw [List.replicate_succ', latest_append, if_pos rfl] at found
  simp [kvdbGet, checked, getLoop, head] at found

theorem reachable_right_counterexample :
    ∃ f, (database fun _ => True).Reachable (f, List.replicate (2 ^ 29) sampleRecord) ∧
    ¬ Right (fun _ => True) (f, List.replicate (2 ^ 29) sampleRecord) := by
  obtain ⟨f, run, I⟩ := reach_replicate (2 ^ 29) (Nat.le_refl _)
  obtain ⟨n, hn⟩ : ∃ n, 2 ^ 29 = n + 1 := ⟨2 ^ 29 - 1, by omega⟩
  rw [hn] at run I ⊢
  exact ⟨f, run, get_emptied (by omega) I⟩

end OsLabs.Kvdb

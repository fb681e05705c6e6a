import OsLabs.Data.Buffer
import OsLabs.Kvdb.Lookup

/-!
# What a crash leaves of the puts

`fprintf` only fills the buffer of the stream, the first `fseek` of the next call
hands it to the kernel, and `fsync` makes durable what the kernel has by then.
-/

namespace OsLabs.Kvdb

abbrev Record := List Byte × List Byte

/-- `check_journal` on a stream with a buffer: its first `fseek` hands the buffer to the kernel. What it leaves. -/
def checkBuffered (fuel : Nat) (bytes : List Byte) (buffer : Option Buffer) : Option (List Byte) :=
  (checkJournal fuel (Stream.opened (flushed bytes buffer))).map Stream.bytes

def kvdbOpen (fuel : Nat) (bytes : List Byte) : Option Stream := checkJournal fuel (Stream.opened bytes)

/-- How far a call of `kvdb_put` is. -/
inductive Phase where
  | idle
  | checked (key value : List Byte)
  | printed (key value : List Byte)
  | synced (key value : List Byte)

/-- What is durable, what the kernel has, and what is still in the buffer of the stream; the call that is under way,
the puts that returned, and how often `fsync` was done. -/
structure Layers where
  disk : List Byte
  kernel : List Byte
  buffer : Option Buffer
  phase : Phase
  puts : List Record
  fsyncs : Nat

inductive Progress where
  | check (key value : List Byte)
  | print
  | sync
  | leave

inductive Advance (ok : Nat → Prop) : Layers → Progress → Layers → Prop
  | check {s : Layers} {key value kernel : List Byte} {fuel : Nat} (idle : s.phase = .idle) (hk : Word key)
      (hv : Word value) (length : ok (flushed s.kernel s.buffer).length)
      (enough : (flushed s.kernel s.buffer).length < fuel)
      (checked : checkBuffered fuel s.kernel s.buffer = some kernel) :
      Advance ok s (.check key value) { s with kernel := kernel, buffer := none, phase := .checked key value }
  | print {s : Layers} {key value : List Byte} (here : s.phase = .checked key value) :
      Advance ok s .print { s with
        buffer := some ⟨s.kernel.length, record key value⟩, phase := .printed key value }
  | sync {s : Layers} {key value : List Byte} (here : s.phase = .printed key value) :
      Advance ok s .sync { s with disk := s.kernel, fsyncs := s.fsyncs + 1, phase := .synced key value }
  | leave {s : Layers} {key value : List Byte} (here : s.phase = .synced key value) :
      Advance ok s .leave { s with phase := .idle, puts := s.puts ++ [(key, value)] }

/-- A handle that was opened on the file of the records `old`. -/
def handle (ok : Nat → Prop) (old : List Record) : Machine Layers Progress where
  Init s := s = ⟨journal old, journal old, none, .idle, [], 0⟩
  Step := Advance ok

/-- The files that a crash may leave: all that was durable, and any part of what the kernel had after it. -/
def Survives (s : Layers) (bytes : List Byte) : Prop := s.disk <+: bytes ∧ bytes <+: s.kernel

/-- After a crash and a `kvdb_open`, the record of the put `i` is in the file, and `kvdb_get` of its key returns its
value or that of a later put of the key. -/
def Durable (old : List Record) (s : Layers) (i : Nat) : Prop :=
  ∀ r, s.puts[i]? = some r → ∀ bytes, Survives s bytes → ∀ fuel, bytes.length < fuel →
    ∃ f m, kvdbOpen fuel bytes = some f ∧ f.bytes = journal ((old ++ s.puts).take m) ∧ old.length + i < m ∧
      ∃ f' value j, kvdbGet fuel f r.1 = some (some value, f') ∧ i ≤ j ∧ s.puts[j]? = some (r.1, value)

variable {old records : List Record} {s t : Layers} {key value : List Byte} {fuel : Nat} {ok : Nat → Prop}

theorem length_record_pos (key value : List Byte) : 0 < (record key value).length := by
  simp [record]

theorem journal_concat (l₁ l₂ : List Record) : journal (l₁ ++ l₂) = journal l₁ ++ journal l₂ := by
  simp [journal]

theorem length_journal_pos (nonempty : records ≠ []) : 0 < (journal records).length := by
  obtain ⟨r, rest, rfl⟩ := List.exists_cons_of_ne_nil nonempty
  have one := length_record_pos r.1 r.2
  simp only [journal, List.map_cons, List.flatten_cons, List.length_append]
  omega

theorem length_journal_lt {m n : Nat} (more : m < n) (there : m < records.length) :
    (journal (records.take m)).length < (journal (records.take n)).length := by
  obtain ⟨k, rfl⟩ : ∃ k, n = m + (k + 1) := ⟨n - m - 1, by omega⟩
  have nonempty : (records.drop m).take (k + 1) ≠ [] := by
    intro empty
    have size := congrArg List.length empty
    rw [List.length_take, List.length_drop, List.length_nil] at size
    omega
  have longer := length_journal_pos nonempty
  rw [List.take_add, journal_concat, List.length_append]
  omega

/-- The latest value of a key is that of one of the puts from the given one on. -/
theorem latest_from {i : Nat} (there : records[i]? = some (key, value)) :
    ∃ value' j, latest key records = some value' ∧ i ≤ j ∧ records[j]? = some (key, value') := by
  induction records using List.reverseRecOn with
  | nil => simp at there
  | append_singleton records r ih =>
    obtain ⟨k, v⟩ := r
    rw [latest_append]
    split
    · rename_i same
      subst same
      have last := (List.getElem?_eq_some_iff.mp there).1
      rw [List.length_append, List.length_singleton] at last
      exact ⟨v, records.length, rfl, by omega, by simp⟩
    · rename_i other
      have before : i < records.length := by
        by_contra far
        obtain ⟨lt, same⟩ := List.getElem?_eq_some_iff.mp there
        rw [List.length_append, List.length_singleton] at lt
        have here : i = records.length := by omega
        subst here
        simp at same
        exact other same.1
      rw [List.getElem?_append_left before] at there
      obtain ⟨value', j, found, le, at'⟩ := ih there
      exact ⟨value', j, found, le, by rw [List.getElem?_append_left (List.getElem?_eq_some_iff.mp at').1, at']⟩

/-! ### What a crash can leave -/

/-- Between two calls, or inside one, the puts up to the last `fsync` but one are durable, and the kernel has at most
one record more. -/
structure Layered (old : List Record) (s : Layers) : Prop where
  words : ∀ r ∈ old ++ s.puts, Word r.1 ∧ Word r.2
  disk : s.disk = journal (old ++ s.puts.take (s.fsyncs - 1))
  small : (s.phase = .idle → s.puts ≠ []) → s.kernel.length < 2 ^ 31
  idle : s.phase = .idle → s.fsyncs = s.puts.length ∧ s.kernel = s.disk ∧
    flushed s.kernel s.buffer = journal (old ++ s.puts)
  checked : ∀ key value, s.phase = .checked key value → (Word key ∧ Word value) ∧ s.fsyncs = s.puts.length ∧
    s.kernel = journal (old ++ s.puts) ∧ s.buffer = none
  printed : ∀ key value, s.phase = .printed key value → (Word key ∧ Word value) ∧ s.fsyncs = s.puts.length ∧
    s.kernel = journal (old ++ s.puts) ∧ s.buffer = some ⟨s.kernel.length, record key value⟩
  synced : ∀ key value, s.phase = .synced key value → (Word key ∧ Word value) ∧ s.fsyncs = s.puts.length + 1 ∧
    s.kernel = s.disk ∧ s.kernel = journal (old ++ s.puts) ∧ s.buffer = some ⟨s.kernel.length, record key value⟩

theorem checkBuffered_journal {bytes : List Byte} {buffer : Option Buffer} (words : ∀ r ∈ records, Word r.1 ∧ Word r.2)
    (content : flushed bytes buffer = journal records) (small : (flushed bytes buffer).length < 2 ^ 31)
    (enough : (flushed bytes buffer).length < fuel) : checkBuffered fuel bytes buffer = some (journal records) := by
  have opened : (Stream.opened (flushed bytes buffer)).bytes = journal records := content
  obtain ⟨f, checked, sound⟩ := checkJournal_keeps words opened (.inl small) enough
  rw [checkBuffered, checked, Option.map_some, sound.bytes, opened]

theorem layered_opened (words : ∀ r ∈ old, Word r.1 ∧ Word r.2) :
    Layered old ⟨journal old, journal old, none, .idle, [], 0⟩ := by
  refine ⟨by simpa
    using words, by simp, fun h => absurd rfl (h rfl), fun _ => ⟨rfl, rfl, by simp [flushed]⟩, ?_, ?_, ?_⟩
  all_goals
    intro key value here
    cases here

theorem layered_advance {step : Progress} (inv : Layered old s) (advance : Advance (· < 2 ^ 31) s step t) :
    Layered old t := by
  obtain ⟨words, disk, small, idle, checked, printed, synced⟩ := inv
  cases advance with
  | @check key value kernel fuel here hk hv length enough done =>
    obtain ⟨count, same, content⟩ := idle here
    have after := checkBuffered_journal words content length enough
    obtain rfl := Option.some.inj (after.symm.trans done)
    refine ⟨words, disk, fun _ => by rwa [← content], nofun, fun key' value' h => ?_, nofun, nofun⟩
    cases h
    exact ⟨⟨hk, hv⟩, count, rfl, rfl⟩
  | @print key value here =>
    obtain ⟨word, count, content, empty⟩ := checked key value here
    have small := small fun idle => absurd (here.symm.trans idle) (by simp)
    refine ⟨words, disk, fun _ => small, nofun, nofun, fun key' value' h => ?_, nofun⟩
    cases h
    exact ⟨word, count, content, rfl⟩
  | @sync key value here =>
    obtain ⟨word, count, content, buffer⟩ := printed key value here
    have small := small fun idle => absurd (here.symm.trans idle) (by simp)
    refine ⟨words, ?_, fun _ => small, nofun, nofun, nofun, fun key' value' h => ?_⟩
    · simp only [Nat.add_sub_cancel]
      rw [content, count, List.take_length]
    · cases h
      exact ⟨word, congrArg (· + 1) count, rfl, content, buffer⟩
  | @leave key value here =>
    obtain ⟨word, count, same, content, buffer⟩ := synced key value here
    have small := small fun idle => absurd (here.symm.trans idle) (by simp)
    refine ⟨fun r mem => ?_, ?_, fun _ => small, fun _ => ?_, nofun, nofun, nofun⟩
    · rw [← List.append_assoc] at mem
      rcases List.mem_append.mp mem with before | new
      · exact words r before
      · rw [List.mem_singleton.mp new]
        exact word
    · simp only [count, Nat.add_sub_cancel, List.take_left]
      rw [← same, content]
    · refine ⟨by simpa using count, same, ?_⟩
      simp only [buffer, flushed, pwrite_end]
      rw [← List.append_assoc, journal_append, content]

theorem layered_reachable (words : ∀ r ∈ old, Word r.1 ∧ Word r.2) (run : (handle (· < 2 ^ 31) old).Reachable s) :
    Layered old s := by
  refine run.induct (Layered old) ?_ fun s step t => layered_advance
  rintro s rfl
  exact layered_opened words

namespace Layered

/-- The kernel has what is durable and at most one record more. -/
theorem kernel (L : Layered old s) : s.kernel = s.disk ∨
    ∃ r, (Word r.1 ∧ Word r.2) ∧ s.puts.take (s.fsyncs - 1) ++ [r] = s.puts ∧ s.kernel = s.disk ++ record r.1 r.2 := by
  have pending (count : s.fsyncs = s.puts.length) (content : s.kernel = journal (old ++ s.puts)) : s.kernel = s.disk ∨
      ∃ r, (Word r.1 ∧ Word r.2) ∧ s.puts.take (s.fsyncs - 1) ++ [r] = s.puts ∧ s.kernel = s.disk ++
        record r.1 r.2 := by
    rcases List.eq_nil_or_concat' s.puts with none | ⟨init, r, last⟩
    · left
      rw [content, L.disk, none, List.take_nil]
    · right
      have rest : s.puts.take (s.fsyncs - 1) = init := by rw [count, last]; simp
      refine ⟨r, L.words r (by rw [last]; simp), by rw [rest, last], ?_⟩
      rw [content, L.disk, rest, last, ← List.append_assoc, journal_append]
  cases phase : s.phase with
  | idle => exact .inl (L.idle phase).2.1
  | checked key value =>
    obtain ⟨-, count, content, -⟩ := L.checked key value phase
    exact pending count content
  | printed key value =>
    obtain ⟨-, count, content, -⟩ := L.printed key value phase
    exact pending count content
  | synced key value => exact .inl (L.synced key value phase).2.2.1

theorem fsyncs_le (L : Layered old s) : s.fsyncs ≤ s.puts.length + 1 := by
  cases phase : s.phase with
  | idle => have := (L.idle phase).1; omega
  | checked key value => have := (L.checked key value phase).2.1; omega
  | printed key value => have := (L.printed key value phase).2.1; omega
  | synced key value => have := (L.synced key value phase).2.1; omega

theorem small_of_put (L : Layered old s) (some_put : s.puts ≠ []) : s.kernel.length < 2 ^ 31 :=
    L.small fun _ => some_put

theorem disk_prefix (L : Layered old s) : s.disk <+: s.kernel := by
  rcases L.kernel with same | ⟨r, -, -, more⟩
  · exact ⟨[], by rw [List.append_nil, same]⟩
  · rw [more]
    exact List.prefix_append ..

theorem small_of_survives {bytes : List Byte} (L : Layered old s) (survives : Survives s bytes)
    (some_put : s.puts ≠ []) :
    bytes.length < 2 ^ 31 :=
  Nat.lt_of_le_of_lt survives.2.length_le (L.small_of_put some_put)

theorem reopened {bytes : List Byte} (L : Layered old s) (survives : Survives s bytes) (some_put : s.puts ≠ [])
    (enough : bytes.length < fuel) : ∃ f m, kvdbOpen fuel bytes = some f ∧ s.fsyncs - 1 ≤ m ∧ m ≤ s.puts.length ∧
      Kvdb.Inv (f, old ++ s.puts.take m) ∧ f.bytes.length ≤ bytes.length := by
  have small := L.small_of_survives survives some_put
  obtain ⟨f, kept, checked, longest, cutAt, stores, inside⟩ := checkJournal_cut (Stream.opened bytes) enough
  have whole : cut bytes kept.length = kept :=
    (cut_eq_iff longest.isPrefix).mpr (.inl (Nat.lt_of_le_of_lt longest.isPrefix.length_le small))
  rw [show (Stream.opened bytes).bytes = bytes from rfl] at longest cutAt
  rw [whole] at cutAt
  have finish (m : Nat) (low : s.fsyncs - 1 ≤ m) (high : m ≤ s.puts.length)
      (content : kept = journal (old ++ s.puts.take m)) :
      ∃ f m, kvdbOpen fuel bytes = some f ∧ s.fsyncs - 1 ≤ m ∧ m ≤ s.puts.length ∧
        Kvdb.Inv (f, old ++ s.puts.take m) ∧ f.bytes.length ≤ bytes.length := by
    refine ⟨f, m, checked, low, high,
      ⟨?_, cutAt.trans content, inside (by simp [Stream.Inside, Stream.opened]), ?_⟩, ?_⟩
    · intro r mem
      apply L.words r
      rcases List.mem_append.mp mem with before | put
      · exact List.mem_append_left _ before
      · exact List.mem_append_right _ (List.mem_of_mem_take put)
    · unfold Stream.Fits
      rw [stores]
      simp [Stream.opened]
    · rw [cutAt]
      exact longest.isPrefix.length_le
  have plain : ∀ r ∈ old ++ s.puts.take (s.fsyncs - 1), Plain r.1 ∧ Plain r.2 := by
    intro r mem
    have word := L.words r (by
      rcases List.mem_append.mp mem with before | put
      · exact List.mem_append_left _ before
      · exact List.mem_append_right _ (List.mem_of_mem_take put))
    exact ⟨word.1.plain, word.2.plain⟩
  obtain ⟨tail, torn⟩ := survives.1
  rw [L.disk] at torn
  have bound := L.fsyncs_le
  rcases L.kernel with same | ⟨r, word, all, more⟩
  · have none : tail = [] := by
      have le := survives.2.length_le
      rw [same, L.disk, ← torn, List.length_append] at le
      exact List.length_eq_zero_iff.mp (by omega)
    rw [none, List.append_nil] at torn
    apply finish (s.fsyncs - 1) (Nat.le_refl _) (by omega)
    apply longest.unique
    rw [← torn]
    exact longest_self (journal_consistent plain)
  · have part : tail <+: record r.1 r.2 := by
      have isPrefix := survives.2
      rw [more, L.disk, ← torn] at isPrefix
      exact (List.prefix_append_right_inj _).mp isPrefix
    have longest' := longest_recovered plain word.1.plain word.2.plain part
    rw [torn] at longest'
    have kept_eq := longest.unique longest'
    unfold recovered at kept_eq
    split at kept_eq
    · rename_i complete
      apply finish s.puts.length (by omega) (Nat.le_refl _)
      rw [kept_eq, complete, ← journal_append, List.append_assoc, all, List.take_length]
    · exact finish (s.fsyncs - 1) (Nat.le_refl _) (by omega) kept_eq

theorem durable_iff {i : Nat} (L : Layered old s) (put : i < s.puts.length) : Durable old s i ↔ i + 1 < s.fsyncs := by
  have some_put : s.puts ≠ [] := by
    intro none
    rw [none] at put
    exact Nat.not_lt_zero _ put
  have bound := L.fsyncs_le
  constructor
  · intro durable
    by_contra early
    obtain ⟨f, m, opened, content, later, -⟩ := durable _ (List.getElem?_eq_getElem put) s.disk
      ⟨List.prefix_refl _, L.disk_prefix⟩ _ (Nat.lt_succ_self _)
    have same : f.bytes = s.disk := by
      have keeps := @checkJournal_keeps (Stream.opened s.disk) (old ++ s.puts.take (s.fsyncs - 1)) (s.disk.length + 1)
        (fun r mem => L.words r (by
          rcases List.mem_append.mp mem with before | there
          · exact List.mem_append_left _ before
          · exact List.mem_append_right _ (List.mem_of_mem_take there)))
        L.disk (.inl (Nat.lt_of_le_of_lt L.disk_prefix.length_le (L.small_of_put some_put))) (Nat.lt_succ_self _)
      obtain ⟨f', opened', sound⟩ := keeps
      rw [kvdbOpen, opened'] at opened
      obtain rfl := Option.some.inj opened
      exact sound.bytes
    have upTo : old ++ s.puts.take (s.fsyncs - 1) = (old ++ s.puts).take (old.length + (s.fsyncs - 1)) := by
      rw [List.take_length_add_append]
    have longer := @length_journal_lt (old ++ s.puts) (old.length + (s.fsyncs - 1)) m (by omega)
      (by rw [List.length_append]; omega)
    rw [← upTo, ← L.disk, ← content, same] at longer
    exact Nat.lt_irrefl _ longer
  · intro late r there bytes survives fuel enough
    obtain ⟨f, m, opened, low, high, inv, shorter⟩ := L.reopened survives some_put enough
    have small := Nat.lt_of_le_of_lt shorter (L.small_of_survives survives some_put)
    have upTo : old ++ s.puts.take m = (old ++ s.puts).take (old.length + m) := by
      rw [List.take_length_add_append]
    have inPart : (s.puts.take m)[i]? = some r := by
      rw [List.getElem?_take_of_lt (by omega), there]
    have lookup : (old ++ s.puts.take m)[old.length + i]? = some (r.1, r.2) := by
      rw [List.getElem?_append_right (Nat.le_add_right ..), Nat.add_sub_cancel_left, inPart]
    obtain ⟨value, j, found, le, at'⟩ := latest_from lookup
    obtain ⟨f', got, -⟩ := @Inv.get r.1 fuel (f, old ++ s.puts.take m) inv small (Nat.lt_of_le_of_lt shorter enough)
    rw [found] at got
    refine ⟨f, old.length + m, opened, by rw [← upTo]; exact inv.bytes, by omega, f', value, j - old.length, got,
      by omega, ?_⟩
    rw [List.getElem?_append_right (by omega)] at at'
    rwa [List.getElem?_take_of_lt (by
      have lt := (List.getElem?_eq_some_iff.mp at').1
      rw [List.length_take] at lt
      omega)] at at'

end Layered

/-- On files of less than 2^31 bytes, a put that returned is durable exactly when a later put has done its `fsync`. -/
theorem durable_put_iff {i : Nat} (words : ∀ r ∈ old, Word r.1 ∧ Word r.2)
    (run : (handle (· < 2 ^ 31) old).Reachable s) (put : i < s.puts.length) : Durable old s i ↔ i + 1 < s.fsyncs :=
  (layered_reachable words run).durable_iff put

theorem checkBuffered_opened : checkBuffered 1 [] none = some [] :=
  @checkBuffered_journal [] _ _ _ (by simp) rfl (by decide) (by decide)

theorem handle_one_put {ok : Nat → Prop} (zero : ok 0) :
    (handle ok []).Reachable ⟨[], [], some ⟨0, record sampleRecord.1 sampleRecord.2⟩, .idle, [sampleRecord], 1⟩ := by
  have start : (handle ok []).Reachable ⟨journal [], journal [], none, .idle, [], 0⟩ := .init rfl
  have checked := start.step (.check rfl sampleRecord_word.1 sampleRecord_word.2 zero (by decide) checkBuffered_opened)
  have printed := checked.step (.print rfl)
  have synced := printed.step (.sync rfl)
  exact synced.step (.leave rfl)

theorem durable_put_iff_sample : ∃ s : Layers, s.puts = [sampleRecord] ∧ (Durable [] s 0 ↔ 0 + 1 < s.fsyncs) :=
  ⟨_, rfl, durable_put_iff (by simp) (handle_one_put (by decide)) (by decide)⟩

/-- The record of the only put is still in the buffer when the crash comes. -/
theorem durable_put_iff_counterexample : ∃ s : Layers, (handle (fun _ => True) []).Reachable s ∧
    s.puts = [sampleRecord] ∧ ¬Durable [] s 0 := by
  refine ⟨_, handle_one_put trivial, rfl, fun durable => ?_⟩
  have layered := @layered_reachable [] _ (by simp) (handle_one_put (by decide))
  exact Nat.lt_irrefl 1 ((layered.durable_iff (i := 0) (by decide)).mp durable)

end OsLabs.Kvdb

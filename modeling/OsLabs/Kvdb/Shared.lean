import OsLabs.Kvdb.Durable

/-!
# Two processes on one file

Each process has a stream and a buffer of its own. The lock covers the calls, but
the record of a put reaches the file at the next call of its process, at the
offset where the file ended when it was printed.
-/

namespace OsLabs.Kvdb
open Function

/-- The file, the buffer of each process and whether it has closed its handle, all puts in their order, and whether
each of them found the buffer of the other process empty. -/
structure Shared where
  bytes : List Byte
  buffer : Bool → Option Buffer
  closed : Bool → Bool
  puts : List Record
  alone : Bool

inductive SharedCall where
  | put (p : Bool) (key value : List Byte)
  | close (p : Bool)

inductive SharedStep (ok : Nat → Prop) : Shared → SharedCall → Shared → Prop
  | put {s : Shared} {p : Bool} {key value bytes : List Byte} {fuel : Nat} (hk : Word key) (hv : Word value)
      (opened : s.closed p = false) (length : ok (flushed s.bytes (s.buffer p)).length)
      (enough : (flushed s.bytes (s.buffer p)).length < fuel)
      (checked : checkBuffered fuel s.bytes (s.buffer p) = some bytes) :
      SharedStep ok s (.put p key value) { s with
        bytes := bytes
        buffer := update s.buffer p (some ⟨bytes.length, record key value⟩)
        puts := s.puts ++ [(key, value)]
        alone := s.alone && (s.buffer (!p)).isNone }
  | close {s : Shared} {p : Bool} {bytes : List Byte} {fuel : Nat} (opened : s.closed p = false)
      (length : ok (flushed s.bytes (s.buffer p)).length) (enough : (flushed s.bytes (s.buffer p)).length < fuel)
      (checked : checkBuffered fuel s.bytes (s.buffer p) = some bytes) :
      SharedStep ok s (.close p) { s with
        bytes := bytes, buffer := update s.buffer p none, closed := update s.closed p true }

/-- Two handles opened on the file of the records `old`. -/
def sharedHandles (ok : Nat → Prop) (old : List Record) : Machine Shared SharedCall where
  Init s := s = ⟨journal old, fun _ => none, fun _ => false, [], true⟩
  Step := SharedStep ok

/-- The file has every record, intact and once. -/
def Whole (old : List Record) (s : Shared) : Prop := ∃ l, l.Perm (old ++ s.puts) ∧ s.bytes = journal l

variable {old records : List Record} {s t : Shared} {p : Bool} {key value bytes : List Byte} {fuel : Nat}

theorem length_journal_put (key value : List Byte) : (journal (records ++ [(key, value)])).length =
    (journal records).length + (record key value).length := by
  rw [journal_append, List.length_append]

theorem length_checkBuffered {buffer : Option Buffer} (enough : (flushed bytes buffer).length < fuel) {left : List Byte}
    (checked : checkBuffered fuel bytes buffer = some left) : left.length ≤ max bytes.length (Buffer.reach buffer) := by
  obtain ⟨f, kept, done, -, cutAt, -⟩ := checkJournal_cut (Stream.opened (flushed bytes buffer)) enough
  rw [checkBuffered, done, Option.map_some] at checked
  obtain rfl := Option.some.inj checked
  rw [cutAt, ← length_flushed]
  unfold cut
  split
  · exact Nat.le_refl _
  · rw [List.length_take]
    exact Nat.min_le_right ..

/-! ### The invariant -/

/-- One process at most has a record in its buffer, which belongs at the end of the file. -/
structure Ordered (old : List Record) (s : Shared) (p : Bool) : Prop where
  other : s.buffer (!p) = none
  content : ∃ l, s.bytes = journal l ∧ ((l = old ++ s.puts ∧ s.buffer p = none) ∨
    ∃ r, l ++ [r] = old ++ s.puts ∧ s.buffer p = some ⟨s.bytes.length, record r.1 r.2⟩)

/-- How long the file can still become without further puts. -/
def Shared.extent (s : Shared) : Nat :=
  max s.bytes.length (max (Buffer.reach (s.buffer true)) (Buffer.reach (s.buffer false)))

structure SharedInv (old : List Record) (s : Shared) : Prop where
  words : ∀ r ∈ old ++ s.puts, Word r.1 ∧ Word r.2
  closed : ∀ p, s.closed p = true → s.buffer p = none
  ordered : s.alone = true → ∃ p, Ordered old s p
  lost : s.alone = false → s.extent < (journal (old ++ s.puts)).length

theorem reach_le (s : Shared) (p : Bool) : Buffer.reach (s.buffer p) ≤ s.extent := by
  unfold Shared.extent
  cases p <;> omega

theorem extent_le {n : Nat} (file : s.bytes.length ≤ n) (buffers : ∀ p, Buffer.reach (s.buffer p) ≤ n) :
    s.extent ≤ n := by
  have := buffers true
  have := buffers false
  unfold Shared.extent
  omega

theorem file_le (s : Shared) : s.bytes.length ≤ s.extent := Nat.le_max_left ..

theorem Ordered.extent_le (h : Ordered old s p) : s.extent ≤ (journal (old ++ s.puts)).length := by
  obtain ⟨other, l, content, ⟨rfl, none⟩ | ⟨r, all, pending⟩⟩ := h
  · apply Kvdb.extent_le (by rw [content])
    intro q
    have empty : s.buffer q = Option.none := by cases p <;> cases q <;> assumption
    rw [empty]
    exact Nat.zero_le _
  · have total : (journal (old ++ s.puts)).length = s.bytes.length + (record r.1 r.2).length := by
      rw [← all, length_journal_put, content]
    apply Kvdb.extent_le (by omega)
    intro q
    by_cases same : q = p
    · rw [same, pending, total]
      exact Nat.le_refl _
    · have empty : s.buffer q = none := by
        rw [Bool.eq_not.mpr same]
        exact other
      rw [empty]
      exact Nat.zero_le _

/-- What `check_journal` leaves of an ordered file: the process with the pending record completes it, the other one
changes nothing. -/
theorem Ordered.check (h : Ordered old s p) (words : ∀ r ∈ old ++ s.puts, Word r.1 ∧ Word r.2) (q : Bool)
    (small : (flushed s.bytes (s.buffer q)).length < 2 ^ 31) (enough : (flushed s.bytes (s.buffer q)).length < fuel)
    (checked : checkBuffered fuel s.bytes (s.buffer q) = some bytes) :
    (q = p → bytes = journal (old ++ s.puts)) ∧ (q = (!p) → bytes = s.bytes) := by
  obtain ⟨other, l, content, rest⟩ := h
  have left (records : List Record) (known : ∀ r ∈ records, Word r.1 ∧ Word r.2)
      (same : flushed s.bytes (s.buffer q) = journal records) : bytes = journal records :=
    Option.some.inj (checked.symm.trans (checkBuffered_journal known same small enough))
  constructor
  · rintro rfl
    apply left _ words
    rcases rest with ⟨rfl, none⟩ | ⟨r, all, pending⟩
    · rw [none, flushed, content]
    · rw [pending, flushed, pwrite_end, content, ← all, journal_append]
  · rintro rfl
    rw [content]
    refine left _ (fun r mem => words r ?_) (by rw [other, flushed, content])
    rcases rest with ⟨rfl, -⟩ | ⟨r', all, -⟩
    · exact mem
    · rw [← all]
      exact List.mem_append_left _ mem

/-- A put on a file that is already too short, or next to a record that is still in the other buffer. -/
theorem extent_put {alone : Bool} (enough : (flushed s.bytes (s.buffer p)).length < fuel)
    (checked : checkBuffered fuel s.bytes (s.buffer p) = some bytes)
    (short : s.extent < (journal (old ++ s.puts)).length ∨
      (s.buffer p = none ∧ s.bytes.length < s.extent ∧ s.extent ≤ (journal (old ++ s.puts)).length)) :
    Shared.extent { s with
      bytes := bytes
      buffer := update s.buffer p (some ⟨bytes.length, record key value⟩)
      puts := s.puts ++ [(key, value)]
      alone := alone } < (journal (old ++ (s.puts ++ [(key, value)]))).length := by
  have file := length_checkBuffered enough checked
  have mine := reach_le s p
  have others := reach_le s (!p)
  have before := file_le s
  have one := length_record_pos key value
  rw [← List.append_assoc, length_journal_put]
  have bound : bytes.length + (record key value).length <
      (journal (old ++ s.puts)).length + (record key value).length ∧
      s.extent < (journal (old ++ s.puts)).length + (record key value).length := by
    rcases short with short | ⟨empty, short, le⟩
    · omega
    · rw [empty, Buffer.reach] at file
      omega
  refine Nat.lt_of_le_of_lt
    (@Kvdb.extent_le _ (max s.extent (bytes.length + (record key value).length)) ?_ ?_) (by omega)
  · simp only
    omega
  · intro q
    simp only [update_apply]
    split
    · exact Nat.le_max_right ..
    · have := reach_le s q
      omega

/-- With the other buffer empty, the file that a put finds has every record. -/
theorem Ordered.put {q : Bool} (h : Ordered old s p) (words : ∀ r ∈ old ++ s.puts, Word r.1 ∧ Word r.2)
    (small : (flushed s.bytes (s.buffer q)).length < 2 ^ 31) (enough : (flushed s.bytes (s.buffer q)).length < fuel)
    (checked : checkBuffered fuel s.bytes (s.buffer q) = some bytes) (empty : s.buffer (!q) = none) :
    bytes = journal (old ++ s.puts) := by
  obtain ⟨mine, others⟩ := h.check words q small enough checked
  by_cases same : q = p
  · exact mine same
  · have opposite := Bool.eq_not.mpr same
    rw [others opposite]
    obtain ⟨-, l, content, ⟨rfl, -⟩ | ⟨r, -, pending⟩⟩ := h
    · exact content
    · rw [opposite, Bool.not_not, pending] at empty
      cases empty

/-- The record that a put finds in the other buffer is the pending one. -/
theorem Ordered.crowded {q : Bool} (h : Ordered old s p) (crowded : (s.buffer (!q)).isNone = false) :
    s.buffer q = none ∧ s.bytes.length < s.extent := by
  have opposite : q = !p := by
    apply Bool.eq_not.mpr
    intro same
    rw [same, h.other] at crowded
    cases crowded
  have reach := reach_le s p
  obtain ⟨other, l, content, ⟨-, none⟩ | ⟨r, -, pending⟩⟩ := h
  · rw [opposite, Bool.not_not, none] at crowded
    cases crowded
  · refine ⟨by rw [opposite]; exact other, ?_⟩
    have one := length_record_pos r.1 r.2
    have stop : s.bytes.length + (record r.1 r.2).length ≤ s.extent := by rwa [pending] at reach
    omega

theorem Ordered.close {q : Bool} (h : Ordered old s p) (words : ∀ r ∈ old ++ s.puts, Word r.1 ∧ Word r.2)
    (small : (flushed s.bytes (s.buffer q)).length < 2 ^ 31) (enough : (flushed s.bytes (s.buffer q)).length < fuel)
    (checked : checkBuffered fuel s.bytes (s.buffer q) = some bytes) :
    Ordered old { s with bytes := bytes, buffer := update s.buffer q none, closed := update s.closed q true } p := by
  obtain ⟨mine, others⟩ := h.check words q small enough checked
  by_cases same : q = p
  · refine ⟨?_, old ++ s.puts, mine same, .inl ⟨rfl, ?_⟩⟩
    · exact (update_of_ne (show (!p) ≠ q by rw [same]; simp) ..).trans h.other
    · rw [same]
      exact update_self ..
  · have opposite := Bool.eq_not.mpr same
    obtain ⟨-, l, content, rest⟩ := h
    refine ⟨?_, l, (others opposite).trans content, ?_⟩
    · rw [opposite]
      exact update_self ..
    · simp only [others opposite]
      rw [update_of_ne (show p ≠ q from Ne.symm same)]
      exact rest

theorem inv_put {q : Bool} (inv : SharedInv old s) (hk : Word key) (hv : Word value) (opened : s.closed q = false)
    (small : (flushed s.bytes (s.buffer q)).length < 2 ^ 31) (enough : (flushed s.bytes (s.buffer q)).length < fuel)
    (checked : checkBuffered fuel s.bytes (s.buffer q) = some bytes) :
    SharedInv old { s with
      bytes := bytes
      buffer := update s.buffer q (some ⟨bytes.length, record key value⟩)
      puts := s.puts ++ [(key, value)]
      alone := s.alone && (s.buffer (!q)).isNone } := by
  constructor
  case words =>
    intro r mem
    rw [← List.append_assoc] at mem
    rcases List.mem_append.mp mem with before | new
    · exact inv.words r before
    · rw [List.mem_singleton.mp new]
      exact ⟨hk, hv⟩
  case closed =>
    intro q' shut
    have apart : q' ≠ q := by
      rintro rfl
      rw [opened] at shut
      cases shut
    simp only [update_of_ne apart]
    exact inv.closed q' shut
  case ordered =>
    intro alone
    obtain ⟨before, empty⟩ := Bool.and_eq_true_iff.mp alone
    rw [Option.isNone_iff_eq_none] at empty
    obtain ⟨p, O⟩ := inv.ordered before
    refine ⟨q, ?_, old ++ s.puts, O.put inv.words small enough checked empty, .inr ⟨(key, value), ?_, ?_⟩⟩
    · exact (update_of_ne (show (!q) ≠ q by simp) ..).trans empty
    · exact List.append_assoc ..
    · exact update_self ..
  case lost =>
    intro crowded
    apply extent_put enough checked
    simp only at crowded
    cases before : s.alone with
    | false => exact .inl (inv.lost before)
    | true =>
      rw [before, Bool.true_and] at crowded
      obtain ⟨p, O⟩ := inv.ordered before
      obtain ⟨empty, short⟩ := O.crowded crowded
      exact .inr ⟨empty, short, O.extent_le⟩

theorem inv_close {q : Bool} (inv : SharedInv old s) (small : (flushed s.bytes (s.buffer q)).length < 2 ^ 31)
    (enough : (flushed s.bytes (s.buffer q)).length < fuel)
    (checked : checkBuffered fuel s.bytes (s.buffer q) = some bytes) :
    SharedInv old { s with bytes := bytes, buffer := update s.buffer q none, closed := update s.closed q true } := by
  constructor
  case words => exact inv.words
  case closed =>
    intro q' shut
    simp only [update_apply] at shut ⊢
    split
    · rfl
    · rename_i apart
      rw [if_neg apart] at shut
      exact inv.closed q' shut
  case ordered =>
    intro alone
    obtain ⟨p, O⟩ := inv.ordered alone
    exact ⟨p, O.close inv.words small enough checked⟩
  case lost =>
    intro crowded
    have short := inv.lost crowded
    have file := length_checkBuffered enough checked
    have mine := reach_le s q
    have before := file_le s
    refine Nat.lt_of_le_of_lt (@Kvdb.extent_le _ s.extent ?_ ?_) short
    · simp only
      omega
    · intro q'
      simp only [update_apply]
      split
      · exact Nat.zero_le _
      · exact reach_le s q'

theorem inv_shared {call : SharedCall} (inv : SharedInv old s) (step : SharedStep (· < 2 ^ 31) s call t) :
    SharedInv old t := by
  cases step with
  | put hk hv opened length enough checked => exact inv_put inv hk hv opened length enough checked
  | close opened length enough checked => exact inv_close inv length enough checked

theorem inv_shared_reachable (words : ∀ r ∈ old, Word r.1 ∧ Word r.2)
    (run : (sharedHandles (· < 2 ^ 31) old).Reachable s) : SharedInv old s := by
  refine run.induct (SharedInv old) ?_ fun s call t => inv_shared
  rintro s rfl
  refine ⟨by simpa using words, fun _ _ => rfl, fun _ => ⟨true, rfl, old, rfl, .inl ⟨by simp, rfl⟩⟩, ?_⟩
  intro crowded
  cases crowded

theorem SharedInv.whole_iff (inv : SharedInv old s) (closed : ∀ p, s.closed p = true) :
    Whole old s ↔ s.alone = true := by
  constructor
  · rintro ⟨l, perm, content⟩
    by_contra crowded
    have short := inv.lost (by simpa using crowded)
    have total : (journal l).length = (journal (old ++ s.puts)).length :=
      (perm.map fun r : Record => record r.1 r.2).flatten.length_eq
    have file := file_le s
    rw [content] at file
    omega
  · intro alone
    obtain ⟨p, -, l, content, ⟨rfl, -⟩ | ⟨r, -, pending⟩⟩ := inv.ordered alone
    · exact ⟨_, .refl _, content⟩
    · rw [inv.closed p (closed p)] at pending
      cases pending

/-- On files of less than 2^31 bytes, the file has every record in the end exactly when each put found the buffer of
the other process empty. -/
theorem shared_whole_iff (words : ∀ r ∈ old, Word r.1 ∧ Word r.2) (run : (sharedHandles (· < 2 ^ 31) old).Reachable s)
    (closed : ∀ p, s.closed p = true) : Whole old s ↔ s.alone = true :=
  (inv_shared_reachable words run).whole_iff closed

def otherRecord : Record := ([97, 97, 97], [98, 98])

theorem otherRecord_word : Word otherRecord.1 ∧ Word otherRecord.2 := by
  simp [Word, otherRecord, isspace]

theorem checkBuffered_single {r : Record} (word : Word r.1 ∧ Word r.2) {buffer : Option Buffer}
    (content : flushed bytes buffer = record r.1 r.2) (small : (record r.1 r.2).length < 9) :
    checkBuffered 9 bytes buffer = some (record r.1 r.2) := by
  have one : journal [r] = record r.1 r.2 := by simp [journal]
  have checked := @checkBuffered_journal [r] 9 bytes buffer (by simpa using word) (content.trans one.symm)
    (by rw [content]; omega) (by rw [content]; exact small)
  rwa [one] at checked

/-- The first process puts a record and closes its handle before the second one does the same. -/
theorem shared_whole_iff_sample : ∃ s : Shared, s.puts = [sampleRecord] ∧ (Whole [] s ↔ s.alone = true) := by
  have opened : (sharedHandles (· < 2 ^ 31) []).Reachable ⟨journal [], fun _ => none, fun _ => false, [], true⟩ :=
    .init rfl
  have first := opened.step (.put (p := true) sampleRecord_word.1 sampleRecord_word.2 rfl (by decide) (by decide)
    checkBuffered_opened)
  have closed₁ := first.step (.close (p := true) rfl (by decide) (show 8 < 9 by decide)
    (checkBuffered_single sampleRecord_word rfl (by decide)))
  have closed₂ := closed₁.step (.close (p := false) rfl (by decide) (show 8 < 9 by decide)
    (checkBuffered_single sampleRecord_word rfl (by decide)))
  exact ⟨_, rfl, shared_whole_iff (by simp) closed₂ (by decide)⟩

/-- Each process puts one record of eight bytes; both records were printed at the offset 0. -/
theorem shared_whole_iff_counterexample : ∃ s : Shared, (sharedHandles (fun _ => True) []).Reachable s ∧
    (∀ p, s.closed p = true) ∧ s.puts = [sampleRecord, otherRecord] ∧ ¬Whole [] s := by
  have opened : (sharedHandles (fun _ => True) []).Reachable ⟨journal [], fun _ => none, fun _ => false, [], true⟩ :=
    .init rfl
  have first := opened.step (.put (p := true) sampleRecord_word.1 sampleRecord_word.2 rfl trivial (by decide)
    checkBuffered_opened)
  have second := first.step (.put (p := false) otherRecord_word.1 otherRecord_word.2 rfl trivial (by decide)
    checkBuffered_opened)
  have closed₁ := second.step (.close (p := true) rfl trivial (show 8 < 9 by decide)
    (checkBuffered_single sampleRecord_word rfl (by decide)))
  have closed₂ := closed₁.step (.close (p := false) rfl trivial (show 8 < 9 by decide)
    (checkBuffered_single otherRecord_word rfl (by decide)))
  refine ⟨_, closed₂, by decide, rfl, ?_⟩
  rintro ⟨l, perm, content⟩
  have total : (journal l).length = 16 := (perm.map fun r : Record => record r.1 r.2).flatten.length_eq
  have size : 8 = (journal l).length := congrArg List.length content
  omega

end OsLabs.Kvdb

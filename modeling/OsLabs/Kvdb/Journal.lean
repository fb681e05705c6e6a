import Mathlib.Data.List.Induction
import OsLabs.Kvdb.Model

/-!
# What `check_journal` leaves

The file is cut after its longest prefix that is empty or ends with a consistent
record, as far as its length fits an `int`. So a torn record goes and a complete
one stays.
-/

namespace OsLabs.Kvdb

variable {f f' : Stream} {pre after run l l' : List Byte} {stop flag : Byte} {fuel : Nat}

/-! ### Integers -/

theorem toInt_add (m n : Int) : toInt (toInt m + n) = toInt (m + n) := Int.bmod_add_bmod

theorem toInt_small {n : Nat} (h : n < 2 ^ 31) : toInt n = n := by
  unfold toInt
  rw [Int.bmod_def]
  omega

theorem toInt_le (n : Nat) : toInt n ≤ n := by
  unfold toInt
  rw [Int.bmod_def]
  omega

theorem toInt_eq_iff (n : Nat) : toInt n = n ↔ n < 2 ^ 31 := by
  unfold toInt
  rw [Int.bmod_def]
  omega

theorem toInt_neg_iff (n : Nat) : toInt n < 0 ↔ 2 ^ 31 ≤ n % 2 ^ 32 := by
  unfold toInt
  rw [Int.bmod_def]
  omega

/-! ### The backward scan -/

theorem fscanfBak_at {x : Byte} (h : f.At (pre ++ [x]) after) (flag : Byte) :
    ∃ f', fscanfBak f flag = (x, f') ∧ f'.At pre (x :: after) ∧ f.Moved f' := by
  obtain ⟨read, at', moved⟩ := h.getBack flag
  exact ⟨_, Prod.ext read rfl, at', moved⟩

theorem scanBack_found (tally : Byte → Int → Int) (n : Int) (h : f.At (pre ++ stop :: run) after) (out : stop ∉ run)
    (going : flag ≠ stop) (enough : run.length + 1 < fuel) :
    ∃ f', scanBack stop tally fuel f flag n = some (stop, tally stop (run.foldr tally n), f') ∧
      f'.At pre (stop :: run ++ after) ∧ f.Moved f' := by
  induction run using List.reverseRecOn generalizing f flag n after fuel with
  | nil =>
    match fuel, enough with
    | fuel + 2, _ =>
      have notHead : ishead f = false := by simp [ishead, h.pos]
      obtain ⟨f₁, got, at', moved⟩ := fscanfBak_at h flag
      exact ⟨f₁, by simp [scanBack, going, notHead, got], at', moved⟩
  | append_singleton run x ih =>
    match fuel, enough with
    | fuel + 1, enough =>
      have notHead : ishead f = false := by simp [ishead, h.pos]
      have h' : f.At ((pre ++ stop :: run) ++ [x]) after := by simpa using h
      obtain ⟨f₁, got, at', moved⟩ := fscanfBak_at h' flag
      have xStop : x ≠ stop := by rintro rfl; simp at out
      obtain ⟨f', eq, at'', moved'⟩ := ih (tally x n) at' (by simp at out; tauto) xStop (by simp at enough; omega)
      refine ⟨f', ?_, by simpa using at'', moved.trans moved'⟩
      rw [scanBack, if_pos (by simp [going, notHead])]
      simp only [got, List.foldr_append, List.foldr_cons, List.foldr_nil]
      exact eq

theorem scanBack_head (tally : Byte → Int → Int) (n : Int) (h : f.At run after) (out : stop ∉ run)
    (going : flag ≠ stop) (enough : run.length < fuel) :
    ∃ flag' n' f', scanBack stop tally fuel f flag n = some (flag', n', f') ∧ flag' ≠ stop ∧
      f'.At [] (run ++ after) ∧ f.Moved f' := by
  induction run using List.reverseRecOn generalizing f flag n after fuel with
  | nil =>
    match fuel, enough with
    | fuel + 1, _ =>
      have head : ishead f = true := by simp [ishead, h.pos]
      exact ⟨flag, n, f, by simp [scanBack, head], going, h, .refl f⟩
  | append_singleton run x ih =>
    match fuel, enough with
    | fuel + 1, enough =>
      have notHead : ishead f = false := by simp [ishead, h.pos]
      obtain ⟨f₁, got, at', moved⟩ := fscanfBak_at h flag
      have xStop : x ≠ stop := by rintro rfl; simp at out
      obtain ⟨flag', n', f', eq, other, at'', moved'⟩ :=
        ih (tally x n) at' (by simp at out; tauto) xStop (by simp at enough; omega)
      refine ⟨flag', n', f', ?_, other, by simpa using at'', moved.trans moved'⟩
      rw [scanBack, if_pos (by simp [going, notHead])]
      simp only [got]
      exact eq

def blanks (run : List Byte) : Int := toInt (run.count blank)

theorem foldr_countBlank (run : List Byte) : countBlank newline (run.foldr countBlank 0) = blanks run := by
  have counted : run.foldr countBlank 0 = blanks run := by
    induction run with
    | nil => rfl
    | cons x run ih =>
      rw [List.foldr_cons, ih, countBlank, blanks, blanks, List.count_cons]
      by_cases h : x = blank
      · simp [h, toInt_add]
      · simp [h]
  rw [counted, countBlank, if_neg (by decide)]

/-! ### Consistent prefixes -/

/-- Empty, or ending with a newline, a run without newlines that has one blank, and a newline. -/
def Consistent (l : List Byte) : Prop :=
  l = [] ∨ ∃ pre run, l = pre ++ newline :: run ++ [newline] ∧ newline ∉ run ∧ blanks run = 1

/-- The longest consistent prefix. -/
structure Longest (bytes kept : List Byte) : Prop where
  isPrefix : kept <+: bytes
  consistent : Consistent kept
  longest : ∀ q, q <+: bytes → Consistent q → q.length ≤ kept.length

theorem Consistent.last {x : Byte} (h : Consistent (l ++ [x])) : x = newline := by
  rcases h with h | ⟨pre, run, h, -⟩
  · simp at h
  · exact (List.append_inj' h rfl).2 |> List.singleton_inj.mp

theorem Consistent.newline_mem (h : Consistent (l ++ [newline])) : newline ∈ l := by
  rcases h with h | ⟨pre, run, h, -⟩
  · simp at h
  · rw [(List.append_inj' h rfl).1]; simp

theorem split_last {x : Byte} (h : x ∈ l) : ∃ pre run, l = pre ++ x :: run ∧ x ∉ run := by
  induction l using List.reverseRecOn with
  | nil => cases h
  | append_singleton l y ih =>
    by_cases same : y = x
    · exact ⟨l, [], by rw [same], by simp⟩
    · have inside : x ∈ l := by simpa [Ne.symm same] using h
      obtain ⟨pre, run, rfl, out⟩ := ih inside
      exact ⟨pre, run ++ [y], by simp, by simp [out, Ne.symm same]⟩

theorem last_unique {x : Byte} {pre' run' : List Byte} (h : pre ++ x :: run = pre' ++ x :: run') (out : x ∉ run)
    (out' : x ∉ run') : run = run' := by
  rcases List.append_eq_append_iff.mp h with ⟨mid, -, eq⟩ | ⟨mid, -, eq⟩
  · cases mid with
    | nil => exact (List.cons.inj eq).2
    | cons y mid =>
      have := (List.cons.inj eq).2
      exact absurd (by rw [this]; simp) out
  · cases mid with
    | nil => exact (List.cons.inj eq).2.symm
    | cons y mid =>
      have := (List.cons.inj eq).2
      exact absurd (by rw [this]; simp) out'

/-- A consistent prefix of a record's end is all of it or ends before the record. -/
theorem Consistent.of_prefix {q : List Byte} (h : Consistent q) (le : q <+: pre ++ newline :: run ++ [newline])
    (out : newline ∉ run) :
    q.length ≤ pre.length + 1 ∨ (q = pre ++ newline :: run ++ [newline] ∧ blanks run = 1) := by
  rcases List.prefix_concat_iff.mp le with rfl | le
  · right
    rcases h with h | ⟨pre', run', h, out', one⟩
    · simp at h
    · rw [last_unique (List.append_inj' h rfl).1 out out']
      exact ⟨rfl, one⟩
  · left
    by_contra long
    obtain ⟨t, rfl⟩ : pre ++ [newline] <+: q :=
      List.prefix_of_prefix_length_le (by simp) le (by simp; omega)
    have inRun : t <+: run := by
      rw [show pre ++ newline :: run = (pre ++ [newline]) ++ run by simp] at le
      exact (List.prefix_append_right_inj _).mp le
    rcases List.eq_nil_or_concat' t with rfl | ⟨t, x, rfl⟩
    · simp at long
    · rw [← List.append_assoc] at h
      exact out (h.last ▸ inRun.subset (by simp))

/-! ### The loop -/

theorem journalLoop_byte {f₁ : Stream} {x : Byte} (notHead : ishead f = false) (got : fscanfBak f flag = (x, f₁))
    (other : x ≠ newline) (toTrun : Int) :
    journalLoop (fuel + 1) f flag toTrun = journalLoop fuel f₁ x (toInt f.pos) := by
  simp [journalLoop, notHead, got, other]

theorem journalLoop_newline {f₁ f₂ : Stream} {flag' : Byte} {n : Int} (notHead : ishead f = false)
    (got : fscanfBak f flag = (newline, f₁)) (found : scanBack newline countBlank fuel f₁ 0 0 = some (flag', n, f₂))
    (toTrun : Int) :
    journalLoop (fuel + 1) f flag toTrun =
      if flag' = newline ∧ n = 1 then some (true, toInt f.pos, f₂)
      else if flag' = newline then journalLoop fuel (f₂.seekCur 1) flag' (toInt f.pos)
      else journalLoop fuel f₂ flag' (toInt f.pos) := by
  simp [journalLoop, notHead, got, found]

/-- From `g` the loop ends at the longest consistent prefix of the file of `f`. -/
def EndsLongest (f g : Stream) (fuel : Nat) (flag : Byte) (toTrun : Int) : Prop :=
  ∃ consist t f' kept, journalLoop fuel g flag toTrun = some (consist, t, f') ∧ f.Moved f' ∧
    (if !consist && ishead f' then toInt f'.pos else t) = toInt kept.length ∧ Longest f.bytes kept

theorem EndsLongest.head {g : Stream} {rest : List Byte} (hg : g.At [] rest) (moved : f.Moved g) (flag : Byte) (t : Int)
    (n : Nat) (only : ∀ q, q <+: f.bytes → Consistent q → q = []) : EndsLongest f g (n + 1) flag t := by
  have head : ishead g = true := by simp [ishead, hg.pos]
  refine ⟨false, t, g, [], by simp [journalLoop, head], moved, by simp [head, hg.pos], ?_⟩
  exact ⟨List.nil_prefix, .inl rfl, fun q hq c => by rw [only q hq c]⟩

/-- The bytes of the file are the same wherever the position is. -/
theorem EndsLongest.onward {g : Stream} {t : Int} (h : EndsLongest g g fuel flag t) (fg : f.Moved g) :
    EndsLongest f g fuel flag t := by
  obtain ⟨consist, t', f', kept, eq, gf, cut, longest⟩ := h
  exact ⟨consist, t', f', kept, eq, fg.trans gf, cut, fg.bytes ▸ longest⟩

/-- From a position that every consistent prefix ends before, the loop ends at the longest one. -/
theorem journalLoop_longest {toTrun : Int} (h : f.At pre after)
    (tail : ∀ q, q <+: f.bytes → Consistent q → q.length ≤ pre.length) (enough : pre.length < fuel) :
    EndsLongest f f fuel flag toTrun := by
  induction fuel generalizing f pre after flag toTrun with
  | zero => cases enough
  | succ fuel ih =>
    have inPre {q : List Byte} (hq : q <+: f.bytes) (c : Consistent q) : q <+: pre :=
      List.prefix_of_prefix_length_le hq (h.bytes ▸ List.prefix_append ..) (tail q hq c)
    rcases List.eq_nil_or_concat' pre with rfl | ⟨pre, x, rfl⟩
    · exact .head h (.refl f) flag toTrun fuel fun q hq c => List.prefix_nil.mp (inPre hq c)
    have notHead : ishead f = false := by simp [ishead, h.pos]
    obtain ⟨f₁, got, at', moved⟩ := fscanfBak_at h flag
    have onward {g : Stream} {pre' rest : List Byte} {flag : Byte} {t : Int} (hg : g.At pre' rest) (fg : f.Moved g)
        (tail' : ∀ q, q <+: f.bytes → Consistent q → q.length ≤ pre'.length) (enough' : pre'.length < fuel) :
        EndsLongest f g fuel flag t := (@ih g pre' rest flag t hg (by rwa [fg.bytes]) enough').onward fg
    have less : pre.length < fuel := by simpa using enough
    have zero : (0 : Byte) ≠ newline := by decide
    by_cases nl : x = newline
    · subst nl
      by_cases more : newline ∈ pre
      · obtain ⟨pre, run, rfl, out⟩ := split_last more
        obtain ⟨f₂, found, at₂, moved₂⟩ :=
          scanBack_found countBlank 0 at' out zero (show run.length + 1 < fuel by simp at less; omega)
        rw [foldr_countBlank] at found
        rw [EndsLongest, journalLoop_newline notHead got found]
        have whole : pre ++ newline :: run ++ [newline] <+: f.bytes := h.bytes ▸ List.prefix_append ..
        by_cases one : blanks run = 1
        · refine ⟨true, toInt f.pos, f₂, pre ++ newline :: run ++ [newline], if_pos ⟨rfl, one⟩,
            moved.trans moved₂, ?_, whole,
            .inr ⟨pre, run, rfl, out, one⟩, tail⟩
          simp [h.pos]
        · have step : f₂.seekCur 1 = f₂.seek (pre ++ [newline]).length := by
            simp [Stream.seekCur, at₂.pos]
          have at₃ : (f₂.seekCur 1).At (pre ++ [newline]) (run ++ newline :: after) :=
            step ▸ Stream.seek_at (by simpa using at₂.bytes) rfl
          have moved₃ : f₂.Moved (f₂.seekCur 1) := step ▸ Stream.seek_moved (by simp [at₂.bytes])
          rw [if_neg (by simp [one]), if_pos rfl]
          refine onward at₃ ((moved.trans moved₂).trans moved₃) (fun q hq c => ?_) (by simp at less ⊢; omega)
          rcases c.of_prefix (inPre hq c) out with short | ⟨-, blank⟩
          · simpa using short
          · exact absurd blank one
      · obtain ⟨flag', n, f₂, found, other, at₂, moved₂⟩ :=
          scanBack_head countBlank 0 at' more zero less
        rw [EndsLongest, journalLoop_newline notHead got found, if_neg (by simp [other]), if_neg other]
        cases fuel with
        | zero => cases less
        | succ fuel =>
          apply EndsLongest.head at₂ (moved.trans moved₂) flag' _ fuel
          intro q hq c
          rcases List.eq_nil_or_concat' q with rfl | ⟨q, y, rfl⟩
          · rfl
          · obtain rfl := c.last
            have inside : q <+: pre := by
              rcases List.prefix_concat_iff.mp (inPre hq c) with same | shorter
              · exact (List.append_inj' same rfl).1 ▸ List.prefix_rfl
              · exact (List.prefix_append ..).trans shorter
            exact absurd (inside.subset c.newline_mem) more
    · rw [EndsLongest, journalLoop_byte notHead got nl]
      refine onward at' moved (fun q hq c => ?_) less
      rcases List.prefix_concat_iff.mp (inPre hq c) with rfl | shorter
      · exact absurd c.last nl
      · exact shorter.length_le

/-- The file of `bytes` after `ftruncate` to the `int` that was assigned `n`. -/
def cut (bytes : List Byte) (n : Nat) : List Byte :=
  if toInt n < 0 then bytes else bytes.take (toInt n).toNat

theorem truncate_cut {n : Nat} (h : n ≤ f.bytes.length) : (f.truncate (toInt n)).bytes = cut f.bytes n := by
  unfold cut
  split
  · rename_i neg; rw [Stream.truncate_negative neg]
  · rename_i nonneg
    obtain ⟨m, hm⟩ := Int.eq_ofNat_of_zero_le (Int.not_lt.mp nonneg)
    have := toInt_le n
    rw [hm, Stream.truncate_bytes (by omega)]
    rfl

theorem checkJournal_cut (f : Stream) (enough : f.bytes.length < fuel) :
    ∃ f' kept, checkJournal fuel f = some f' ∧ Longest f.bytes kept ∧ f'.bytes = cut f.bytes kept.length ∧
      f'.stores = f.stores ∧ (f.Inside → f'.Inside) := by
  obtain ⟨consist, t, f₁, kept, eq, moved, cutAt, longest⟩ :=
    @journalLoop_longest _ _ _ 0 _ (toInt f.seekEnd.pos) f.seekEnd_at (fun q hq _ => hq.length_le) enough
  have all := f.seekEnd_moved.trans moved
  have fits : kept.length ≤ f₁.bytes.length := by rw [all.bytes]; exact longest.isPrefix.length_le
  refine ⟨f₁.truncate (toInt kept.length), kept, ?_, longest, ?_, ?_, ?_⟩
  · simp only [checkJournal, eq, Option.bind_eq_bind, Option.bind_some, cutAt]
  · rw [truncate_cut fits, all.bytes]
  · exact (Stream.truncate_trace ..).1.trans all.stores
  · intro inside
    unfold Stream.Inside
    rw [(Stream.truncate_trace ..).2]
    exact all.inside inside

theorem Longest.unique (h : Longest l run) (h' : Longest l l') : run = l' :=
  List.IsPrefix.eq_of_length (List.prefix_of_prefix_length_le h.isPrefix h'.isPrefix
    (h'.longest _ h.isPrefix h.consistent))
    (Nat.le_antisymm (h'.longest _ h.isPrefix h.consistent) (h.longest _ h'.isPrefix h'.consistent))

/-! ### Recovery from a torn record -/

/-- Bytes that a key or a value of a record may have. -/
def Plain (w : List Byte) : Prop := blank ∉ w ∧ newline ∉ w

def journal (records : List (List Byte × List Byte)) : List Byte :=
  (records.map fun r => record r.1 r.2).flatten

/-- Whatever the position, `check_journal` on a file of these bytes leaves `kept`. -/
def Leaves (bytes kept : List Byte) : Prop :=
  ∀ f fuel, f.bytes = bytes → bytes.length < fuel → (checkJournal fuel f).map Stream.bytes = some kept

variable {key value : List Byte} {records : List (List Byte × List Byte)}

theorem leaves_iff {bytes kept k : List Byte} (longest : Longest bytes kept) :
    Leaves bytes k ↔ cut bytes kept.length = k := by
  constructor
  · intro leaves
    have enough : (Stream.opened bytes).bytes.length < bytes.length + 1 := Nat.lt_succ_self _
    obtain ⟨f', kept', eq, longest', cutAt, -⟩ := checkJournal_cut (Stream.opened bytes) enough
    have := leaves (Stream.opened bytes) _ rfl enough
    rw [eq, Option.map_some, cutAt, ← longest.unique longest'] at this
    exact Option.some.inj this
  · rintro rfl f fuel rfl enough
    obtain ⟨f', kept', eq, longest', cutAt, -⟩ := checkJournal_cut f enough
    rw [eq, Option.map_some, cutAt, longest.unique longest']

theorem record_eq (key value : List Byte) : record key value = newline :: (key ++ blank :: value) ++ [newline] := by
  simp [record]

theorem record_run (hk : Plain key) (hv : Plain value) :
    newline ∉ key ++ blank :: value ∧ blanks (key ++ blank :: value) = 1 := by
  constructor
  · have : newline ≠ blank := by decide
    simp [hk.2, hv.2, this]
  · have count : (key ++ blank :: value).count blank = 1 := by
      simp [List.count_eq_zero_of_not_mem hk.1, List.count_eq_zero_of_not_mem hv.1]
    rw [blanks, count]
    exact toInt_small (by decide)

theorem journal_append (records : List (List Byte × List Byte)) (key value : List Byte) :
    journal (records ++ [(key, value)]) = journal records ++ record key value := by
  simp [journal]

theorem journal_consistent (plain : ∀ r ∈ records, Plain r.1 ∧ Plain r.2) : Consistent (journal records) := by
  rcases List.eq_nil_or_concat' records with rfl | ⟨records, r, rfl⟩
  · exact .inl rfl
  · have ⟨hk, hv⟩ := plain r (by simp)
    have ⟨out, one⟩ := record_run hk hv
    exact .inr ⟨journal records, r.1 ++ blank :: r.2, by rw [journal_append, record_eq]; simp, out, one⟩

theorem longest_self (h : Consistent l) : Longest l l := ⟨List.prefix_rfl, h, fun _ hq _ => hq.length_le⟩

/-- Of a record that is not complete nothing is kept. -/
theorem longest_torn {p : List Byte} (plain : ∀ r ∈ records, Plain r.1 ∧ Plain r.2) (hk : Plain key) (hv : Plain value)
    (torn : p <+: record key value) (incomplete : p ≠ record key value) :
    Longest (journal records ++ p) (journal records) := by
  refine ⟨List.prefix_append .., journal_consistent plain, fun q hq c => ?_⟩
  have ⟨out, one⟩ := record_run hk hv
  rw [record_eq] at torn incomplete
  have run : p <+: newline :: (key ++ blank :: value) := (List.prefix_concat_iff.mp torn).resolve_left incomplete
  by_contra long
  obtain ⟨t, rfl⟩ : journal records <+: q := List.prefix_of_prefix_length_le (List.prefix_append ..) hq (by omega)
  have inRun : t <+: newline :: (key ++ blank :: value) := ((List.prefix_append_right_inj _).mp hq).trans run
  have nonempty : t ≠ [] := by rintro rfl; simp at long
  obtain ⟨x, xs, rfl⟩ := List.exists_cons_of_ne_nil nonempty
  obtain rfl := (List.cons_prefix_cons.mp inRun).1
  rcases List.eq_nil_or_concat' xs with rfl | ⟨xs, y, rfl⟩
  · -- the newline of the torn record right after the one of the last complete record
    rcases c with c | ⟨pre, r, c, outR, oneR⟩
    · simp at c
    · have eq := (List.append_inj' c rfl).1
      rcases List.eq_nil_or_concat' records with rfl | ⟨records, last, rfl⟩
      · simp [journal] at eq
      · rw [journal_append, record_eq, ← List.append_assoc] at eq
        have empty : r = [] := by
          rcases List.eq_nil_or_concat' r with rfl | ⟨r, y, rfl⟩
          · rfl
          · have := (List.append_inj' (eq.trans (by simp : _ = (pre ++ newline :: r) ++ [y])) rfl).2
            simp at this
            simp [← this] at outR
        rw [empty] at oneR
        exact absurd oneR (by decide)
  · have same := @Consistent.last (journal records ++ newline :: xs) y (by simpa using c)
    exact out (same ▸ (List.cons_prefix_cons.mp inRun).2.subset (show y ∈ xs ++ [y] by simp))

theorem cut_eq_iff {bytes kept : List Byte} (isPrefix : kept <+: bytes) :
    cut bytes kept.length = kept ↔ kept.length < 2 ^ 31 ∨ (kept = bytes ∧ 2 ^ 31 ≤ kept.length % 2 ^ 32) := by
  have le := isPrefix.length_le
  have take : bytes.take kept.length = kept := (List.prefix_iff_eq_take.mp isPrefix).symm
  unfold cut
  rw [← toInt_neg_iff]
  split
  · rename_i neg
    have := toInt_eq_iff kept.length
    constructor
    · rintro rfl; exact .inr ⟨rfl, neg⟩
    · rintro (small | ⟨same, -⟩)
      · omega
      · exact same.symm
  · rename_i nonneg
    rw [or_iff_left (fun h => nonneg h.2), ← toInt_eq_iff]
    have := toInt_le kept.length
    constructor
    · intro eq
      have := congrArg List.length eq
      rw [List.length_take] at this
      omega
    · intro eq
      rw [eq, Int.toNat_natCast, take]

/-- What should be left of complete records and a part `p` of one more. -/
def recovered (records : List (List Byte × List Byte)) (key value p : List Byte) : List Byte :=
  if p = record key value then journal records ++ p else journal records

theorem longest_recovered {p : List Byte} (plain : ∀ r ∈ records, Plain r.1 ∧ Plain r.2) (hk : Plain key)
    (hv : Plain value) (torn : p <+: record key value) :
    Longest (journal records ++ p) (recovered records key value p) := by
  unfold recovered
  split
  · rename_i complete
    rw [complete, ← journal_append]
    refine longest_self (journal_consistent fun r hr => ?_)
    rcases List.mem_append.mp hr with hr | hr
    · exact plain r hr
    · rw [List.mem_singleton.mp hr]; exact ⟨hk, hv⟩
  · rename_i incomplete
    exact longest_torn plain hk hv torn incomplete

/-- The length that `check_journal` passes to `ftruncate` is an `int`. -/
theorem journal_leaves_iff {p : List Byte} (plain : ∀ r ∈ records, Plain r.1 ∧ Plain r.2) (hk : Plain key)
    (hv : Plain value) (torn : p <+: record key value) :
    Leaves (journal records ++ p) (recovered records key value p) ↔
      (recovered records key value p).length < 2 ^ 31 ∨
        (recovered records key value p = journal records ++ p ∧
          2 ^ 31 ≤ (recovered records key value p).length % 2 ^ 32) := by
  have longest := longest_recovered plain hk hv torn
  exact (leaves_iff longest).trans (cut_eq_iff longest.isPrefix)

theorem journal_leaves_iff_sample :
    Leaves (journal [([107], [118])] ++ [10, 97, 32]) (recovered [([107], [118])] [97] [98] [10, 97, 32]) ↔
      (recovered [([107], [118])] [97] [98] [10, 97, 32]).length < 2 ^ 31 ∨
        (recovered [([107], [118])] [97] [98] [10, 97, 32] = journal [([107], [118])] ++ [10, 97, 32] ∧
          2 ^ 31 ≤ (recovered [([107], [118])] [97] [98] [10, 97, 32]).length % 2 ^ 32) :=
  journal_leaves_iff (by unfold Plain; decide) (by unfold Plain; decide) (by unfold Plain; decide) (by decide)

def sampleRecord : List Byte × List Byte := ([107, 107, 107], [118, 118])

theorem sampleRecord_plain {n : Nat} : ∀ r ∈ List.replicate n sampleRecord, Plain r.1 ∧ Plain r.2 := by
  intro r hr
  rw [List.eq_of_mem_replicate hr]
  unfold Plain
  decide

theorem length_journal_replicate (n : Nat) : (journal (List.replicate n sampleRecord)).length = 8 * n := by
  have record : (record sampleRecord.1 sampleRecord.2).length = 8 := by decide
  simp [journal, record, Nat.mul_comm]

theorem journal_torn_stays {n : Nat} (big : 2 ^ 31 ≤ 8 * n) :
    ¬ Leaves (journal (List.replicate n sampleRecord) ++ [newline]) (journal (List.replicate n sampleRecord)) := by
  have one := @sampleRecord_plain 1 sampleRecord (by simp)
  have torn : [newline] <+: record sampleRecord.1 sampleRecord.2 := by decide
  have incomplete : [newline] ≠ record sampleRecord.1 sampleRecord.2 := by decide
  have longest := longest_torn (@sampleRecord_plain n) one.1 one.2 torn incomplete
  intro leaves
  have length := length_journal_replicate n
  rcases (cut_eq_iff longest.isPrefix).mp ((leaves_iff longest).mp leaves) with small | ⟨same, -⟩
  · omega
  · have := congrArg List.length same
    rw [List.length_append] at this
    exact absurd this (by simp)

/-- The leading newline of a torn record stays after 2^28 records, whose 2^31 bytes are negative as an `int`. -/
theorem journal_leaves_counterexample :
    (∀ r ∈ List.replicate (2 ^ 28) sampleRecord, Plain r.1 ∧ Plain r.2) ∧
      [newline] <+: record sampleRecord.1 sampleRecord.2 ∧ [newline] ≠ record sampleRecord.1 sampleRecord.2 ∧
      ¬ Leaves (journal (List.replicate (2 ^ 28) sampleRecord) ++ [newline])
        (journal (List.replicate (2 ^ 28) sampleRecord)) :=
  ⟨sampleRecord_plain, by decide, by decide, journal_torn_stays (by omega)⟩

/-! ### Any content -/

/-- Empty, or ending with a newline, a run without newlines that has exactly one blank, and a newline. -/
def Complete (l : List Byte) : Prop :=
  l = [] ∨ ∃ pre run, l = pre ++ newline :: run ++ [newline] ∧ newline ∉ run ∧ run.count blank = 1

structure LongestComplete (bytes kept : List Byte) : Prop where
  isPrefix : kept <+: bytes
  complete : Complete kept
  longest : ∀ q, q <+: bytes → Complete q → q.length ≤ kept.length

/-- `check_journal` ends, leaves the longest complete prefix, and changes nothing when it is called again. -/
def Recovers (bytes : List Byte) : Prop :=
  ∀ f fuel, f.bytes = bytes → bytes.length < fuel → ∃ f', checkJournal fuel f = some f' ∧
    LongestComplete bytes f'.bytes ∧
    ∀ fuel', f'.bytes.length < fuel' → (checkJournal fuel' f').map Stream.bytes = some f'.bytes

/-- The number of bytes up to the last record whose blanks are one as an `int` is, as an `int`, that of the longest
complete prefix; or that prefix is the whole file and its length is negative as an `int`. -/
def LengthFits (bytes : List Byte) : Prop :=
  ∃ kept counted, LongestComplete bytes kept ∧ Longest bytes counted ∧
    (kept.length < 2 ^ 31 ∧ counted.length % 2 ^ 32 = kept.length ∨ kept = bytes ∧ 2 ^ 31 ≤ kept.length % 2 ^ 32)

variable {bytes kept counted : List Byte}

theorem Complete.consistent (h : Complete l) : Consistent l := by
  rcases h with empty | ⟨pre, run, eq, out, one⟩
  · exact .inl empty
  · exact .inr ⟨pre, run, eq, out, by rw [blanks, one]; rfl⟩

theorem exists_longestComplete (bytes : List Byte) : ∃ kept, LongestComplete bytes kept := by
  induction bytes using List.reverseRecOn with
  | nil => exact ⟨[], List.nil_prefix, .inl rfl, fun q hq _ => hq.length_le⟩
  | append_singleton bytes x ih =>
    by_cases whole : Complete (bytes ++ [x])
    · exact ⟨_, List.prefix_rfl, whole, fun q hq _ => hq.length_le⟩
    · obtain ⟨kept, isPrefix, complete, longest⟩ := ih
      refine ⟨kept, isPrefix.trans (List.prefix_append ..), complete, fun q hq c => ?_⟩
      rcases List.prefix_concat_iff.mp hq with rfl | shorter
      · exact absurd c whole
      · exact longest q shorter c

theorem LongestComplete.unique (h : LongestComplete l run) (h' : LongestComplete l l') : run = l' :=
  List.IsPrefix.eq_of_length
    (List.prefix_of_prefix_length_le h.isPrefix h'.isPrefix (h'.longest _ h.isPrefix h.complete))
    (Nat.le_antisymm (h'.longest _ h.isPrefix h.complete) (h.longest _ h'.isPrefix h'.complete))

theorem LongestComplete.prefix_counted (h : LongestComplete bytes kept) (h' : Longest bytes counted) :
    kept <+: counted :=
  List.prefix_of_prefix_length_le h.isPrefix h'.isPrefix (h'.longest _ h.isPrefix h.complete.consistent)

/-- The file is cut after `counted`; when that leaves the shorter `kept`. -/
theorem cut_eq_kept_iff (inner : kept <+: counted) (outer : counted <+: bytes) : cut bytes counted.length = kept ↔
    kept.length < 2 ^ 31 ∧ counted.length % 2 ^ 32 = kept.length ∨ kept = bytes ∧ 2 ^ 31 ≤ kept.length % 2 ^ 32 := by
  have le := inner.length_le
  have le' := outer.length_le
  have whole (same : kept = bytes) : counted.length = kept.length := by
    subst same
    omega
  unfold cut
  rw [← toInt_neg_iff]
  split
  · rename_i neg
    have large := (toInt_neg_iff _).mp neg
    constructor
    · rintro rfl
      exact .inr ⟨rfl, by rwa [← whole rfl]⟩
    · rintro (⟨small, same⟩ | ⟨same, -⟩)
      · omega
      · exact same.symm
  · rename_i nonneg
    have small : counted.length % 2 ^ 32 < 2 ^ 31 := by
      have := toInt_neg_iff counted.length
      omega
    have value : (toInt counted.length).toNat = counted.length % 2 ^ 32 := by
      unfold toInt
      rw [Int.bmod_def]
      omega
    have inside : counted.length % 2 ^ 32 ≤ bytes.length := (Nat.mod_le ..).trans le'
    rw [value]
    constructor
    · intro eq
      have length := congrArg List.length eq
      rw [List.length_take, Nat.min_eq_left inside] at length
      exact .inl ⟨by omega, length⟩
    · rintro (⟨-, same⟩ | ⟨same, neg⟩)
      · rw [same]
        exact (List.prefix_iff_eq_take.mp (inner.trans outer)).symm
      · rw [whole same] at nonneg
        exact absurd neg nonneg

theorem cut_again (complete : Complete kept) (fits : kept.length < 2 ^ 31 ∨ 2 ^ 31 ≤ kept.length % 2 ^ 32) :
    Leaves kept kept := by
  rw [leaves_iff (longest_self complete.consistent), cut_eq_iff List.prefix_rfl]
  exact fits.imp id fun large => ⟨rfl, large⟩

theorem recovers_iff (bytes : List Byte) : Recovers bytes ↔ LengthFits bytes := by
  obtain ⟨kept, longest⟩ := exists_longestComplete bytes
  constructor
  · intro recovers
    obtain ⟨f', counted, done, byInt, cutAt, -⟩ := checkJournal_cut (Stream.opened bytes) (Nat.lt_succ_self _)
    obtain ⟨f'', done', left, -⟩ := recovers (Stream.opened bytes) _ rfl (Nat.lt_succ_self _)
    obtain rfl := Option.some.inj (done.symm.trans done')
    refine ⟨kept, counted, longest, byInt, (cut_eq_kept_iff (longest.prefix_counted byInt) byInt.isPrefix).mp ?_⟩
    rw [longest.unique left]
    exact cutAt.symm
  · rintro ⟨kept, counted, longest, byInt, fits⟩ f fuel rfl enough
    obtain ⟨f', counted', done, byInt', cutAt, -⟩ := checkJournal_cut f enough
    obtain rfl := byInt.unique byInt'
    rw [(cut_eq_kept_iff (longest.prefix_counted byInt) byInt.isPrefix).mpr fits] at cutAt
    refine ⟨f', done, cutAt ▸ longest, fun fuel' enough' => ?_⟩
    have again := cut_again longest.complete (fits.imp And.left And.right)
    rw [cutAt]
    exact again f' fuel' cutAt (by rwa [cutAt] at enough')

theorem record_complete (plain : Plain key ∧ Plain value) : Complete (l ++ record key value) := by
  have out := (record_run plain.1 plain.2).1
  have one : (key ++ blank :: value).count blank = 1 := by
    simp [List.count_eq_zero_of_not_mem plain.1.1, List.count_eq_zero_of_not_mem plain.2.1]
  exact .inr ⟨l, key ++ blank :: value, by rw [record_eq]; simp, out, one⟩

theorem Recovers.leaves (h : Recovers bytes) (longest : LongestComplete bytes kept) : Leaves bytes kept := by
  intro f fuel same enough
  obtain ⟨f', done, left, -⟩ := h f fuel same enough
  rw [done, Option.map_some, left.unique longest]

theorem sampleRecords_longest (n : Nat) : LongestComplete (journal (List.replicate (n + 1) sampleRecord) ++ [newline])
    (journal (List.replicate (n + 1) sampleRecord)) := by
  have one := @sampleRecord_plain 1 sampleRecord (by simp)
  have torn := longest_torn (@sampleRecord_plain (n + 1)) one.1 one.2 (p := [newline]) (by decide) (by decide)
  refine ⟨torn.isPrefix, ?_, fun q hq c => torn.longest q hq c.consistent⟩
  rw [List.replicate_succ', journal_append]
  exact record_complete one

/-- After 2^28 records of eight bytes the newline of a torn record stays. -/
theorem recovers_counterexample : ¬ Recovers (journal (List.replicate (2 ^ 28 - 1 + 1) sampleRecord) ++ [newline]) := by
  intro recovers
  exact journal_torn_stays (by omega) (recovers.leaves (sampleRecords_longest _))

end OsLabs.Kvdb

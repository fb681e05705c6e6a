import Mathlib.Data.List.Forall2
import OsLabs.Data.Machine
import OsLabs.Data.Memory
import OsLabs.Data.Ring

/-!
# The line discipline of a tty

The queue holds the completed lines, each with a NUL after it, and then the
unfinished one. The NUL ends a read and guards the lines against backspace.
-/

namespace OsLabs.Devices
open Function

def ttyCookBufSz : Nat := 1024

def newline : Byte := 10
def backspace : Byte := 8

/-- `struct tty_queue`; the pointers are offsets from `buf`, and `end` is `TTY_COOK_BUF_SZ`. -/
structure TtyQueue where
  buf : Nat → Byte
  front : Nat
  rear : Nat

/-- `none` is the panic "tty queue full". -/
def ttyEnqueue (q : TtyQueue) (ch : Byte) : Option TtyQueue :=
  let q := { q with buf := update q.buf q.rear ch, rear := if q.rear + 1 = ttyCookBufSz then 0 else q.rear + 1 }
  if q.rear = q.front then none else some { q with buf := update q.buf q.rear 0 }

def ttyPopBack (q : TtyQueue) : TtyQueue × Int :=
  if q.front ≠ ttyCookBufSz then
    let pos := if q.rear = 0 then ttyCookBufSz else q.rear
    if q.buf (pos - 1) ≠ 0 then ({ q with rear := pos - 1, buf := update q.buf (pos - 1) 0 }, 0)
    else (q, 1)
  else (q, 1)

structure Tty where
  queue : TtyQueue
  cooked : Nat

/-- The section of `tty_cook` under `tty->lock`. -/
def ttyCook (tty : Tty) (ch : Byte) : Option (Tty × Int) :=
  if ch = newline then do
    let q ← ttyEnqueue tty.queue ch
    let q ← ttyEnqueue q 0
    some (⟨q, tty.cooked + 1⟩, 0)
  else if ch = backspace then
    let (q, ret) := ttyPopBack tty.queue
    some ({ tty with queue := q }, ret)
  else do
    let q ← ttyEnqueue tty.queue ch
    some ({ tty with queue := q }, 0)

/-- The loop of `tty_read`: the new `front`, the bytes stored to the caller's buffer, and `nread`. -/
def readLoop (buf : Nat → Byte) (count : Nat) : Nat → Nat → List Byte → Nat → Option (Nat × List Byte × Nat)
  | 0, _, _, _ => none
  | fuel + 1, front, out, nread =>
    let ch := buf front
    let out := if nread < count ∧ ch ≠ 0 then out ++ [buf front] else out
    let front := if front + 1 = ttyCookBufSz then 0 else front + 1
    if ch = 0 then some (front, out, nread) else readLoop buf count fuel front out (nread + 1)

/-- The section of `tty_read` under `tty->lock`; without a NUL in the whole buffer it does not end. -/
def ttyRead (tty : Tty) (count : Nat) : Option (Tty × List Byte × Nat) := do
  let (front, out, nread) ← readLoop tty.queue.buf count ttyCookBufSz tty.queue.front [] 0
  some ({ tty with queue := { tty.queue with front := front } }, out, nread)

/-- The loop of `tty_read` with each store to the caller's buffer: the new `front`, the stores, and `nread`. -/
def readStores (buf : Nat → Byte) (count : Nat) :
    Nat → Nat → List (Byte × Nat) → Nat → Option (Nat × List (Byte × Nat) × Nat)
  | 0, _, _, _ => none
  | fuel + 1, front, stores, nread =>
    let ch := buf front
    let stores := if nread < count ∧ ch ≠ 0 then stores ++ [(buf front, nread)] else stores
    let front := if front + 1 = ttyCookBufSz then 0 else front + 1
    if ch = 0 then some (front, stores, nread) else readStores buf count fuel front stores (nread + 1)

/-! ### Lines -/

abbrev Line := List Byte

/-- The completed lines and the unfinished one, after one more character is typed. -/
def typeChar (lines : List Line × Line) (ch : Byte) : List Line × Line :=
  if ch = newline then (lines.1 ++ [lines.2 ++ [newline]], [])
  else if ch = backspace then (lines.1, lines.2.dropLast)
  else (lines.1, lines.2 ++ [ch])

def typedLines (typed : List Byte) : List Line × Line := typed.foldl typeChar ([], [])

theorem typedLines_append {typed : List Byte} {ch : Byte} :
    typedLines (typed ++ [ch]) = typeChar (typedLines typed) ch := by
  rw [typedLines, List.foldl_append]
  rfl

/-! ### The queue and its lines -/

/-- Completed lines as they stand in the queue. -/
def queued (lines : List Line) : List Byte := (lines.map fun line => line ++ [0]).flatten

theorem queued_cons (line : Line) (lines : List Line) : queued (line :: lines) = line ++ 0 :: queued lines := by
  simp [queued]

theorem queued_append (lines : List Line) (line : Line) :
    queued (lines ++ [line]) = queued lines ++ line ++ [0] := by
  simp [queued]

/-- The queue holds `l`, and the byte before its first one is NUL. -/
structure TtyQueue.Contains (q : TtyQueue) (l : List Byte) : Prop where
  ring : Ring ttyCookBufSz q.buf q.front q.rear l
  before : q.buf ((q.front + (ttyCookBufSz - 1)) % ttyCookBufSz) = 0

/-- The queue holds the completed lines and then the unfinished one; no line has a NUL of its own. -/
structure TtyQueue.Holds (q : TtyQueue) (lines : List Line) (line : Line) : Prop where
  contains : q.Contains (queued lines ++ line)
  texts : ∀ l ∈ lines, (0 : Byte) ∉ l
  text : (0 : Byte) ∉ line

variable {q q' : TtyQueue} {l : List Byte} {lines : List Line} {line : Line} {ch : Byte} {tty tty' : Tty}

variable {buf : Nat → Byte} {count fuel front rear nread : Nat} {stores : List (Byte × Nat)} {rest : List Byte}

theorem bufSz_pos : 0 < ttyCookBufSz := by decide

theorem ttyEnqueue_contains (h : q.Contains l) (done : ttyEnqueue q ch = some q') :
    q'.Contains (l ++ [ch]) ∧ q'.front = q.front := by
  obtain ⟨ring, before⟩ := h
  simp only [ttyEnqueue, Ring.wrap_eq ring.rear_lt] at done
  split at done
  · cases done
  · rename_i apart
    cases done
    have free : l.length + 1 ≠ ttyCookBufSz := fun full => apart (ring.full_iff.mpr full)
    have bound := ring.room
    refine ⟨⟨(ring.push (by omega)).write_rear, ?_⟩, rfl⟩
    simp only
    rw [update_apply]
    split
    · rfl
    · rw [update_of_ne, before]
      rw [ring.rear_eq]
      intro same
      have := Ring.slot_inj ring.front_lt (by omega) bound same
      omega

theorem ttyPopBack_guard (h : q.Contains l) (guard : ∀ x ∈ l.getLast?, x = 0) : ttyPopBack q = (q, 1) := by
  obtain ⟨ring, before⟩ := h
  obtain ⟨last, here, lt, zero⟩ : ∃ last, q.rear = (last + 1) % ttyCookBufSz ∧ last < ttyCookBufSz ∧
    q.buf last = 0 := by
    rcases List.eq_nil_or_concat l with rfl | ⟨init, x, rfl⟩
    · refine ⟨(q.front + (ttyCookBufSz - 1)) % ttyCookBufSz, ?_, Nat.mod_lt _ bufSz_pos, before⟩
      rw [Nat.mod_add_mod, show q.front + (ttyCookBufSz - 1) + 1 = q.front + ttyCookBufSz by
        have := bufSz_pos; omega, Nat.add_mod_right, Nat.mod_eq_of_lt ring.front_lt]
      exact ring.empty_iff.mpr rfl
    · rw [List.concat_eq_append] at ring guard
      obtain ⟨last, here, lt, value, -⟩ := ring.pop_back
      exact ⟨last, here, lt, value.trans (guard x (by simp))⟩
  unfold ttyPopBack
  rw [if_pos ring.front_lt.ne, here]
  simp only [Ring.unwrap_eq lt, zero, ne_eq, not_true_eq_false, if_false]

theorem ttyPopBack_contains {x : Byte} (h : q.Contains (l ++ [x])) (nonzero : x ≠ 0) :
    ∃ q', ttyPopBack q = (q', 0) ∧ q'.Contains l := by
  obtain ⟨ring, before⟩ := h
  obtain ⟨last, here, lt, value, rest⟩ := ring.pop_back
  refine ⟨{ q with rear := last, buf := update q.buf last 0 }, ?_, rest.write_rear, ?_⟩
  · unfold ttyPopBack
    rw [if_pos ring.front_lt.ne, here]
    simp only [Ring.unwrap_eq lt, value, ne_eq, nonzero, not_false_eq_true, if_true]
  · simp only [update_apply]
    split
    · rfl
    · exact before

/-- The bytes stored are those of `readLoop`. -/
theorem readStores_bytes : readLoop buf count fuel front (stores.map Prod.fst) nread =
    (readStores buf count fuel front stores nread).map fun (front, stores, nread) =>
    (front, stores.map Prod.fst, nread) := by
  induction fuel generalizing front stores nread with
  | zero => rfl
  | succ fuel ih =>
    rw [readLoop, readStores]
    have stored : (if nread < count ∧ buf front ≠ 0 then stores.map Prod.fst ++ [buf front] else stores.map Prod.fst) =
        (if nread < count ∧ buf front ≠ 0 then stores ++ [(buf front, nread)] else stores).map Prod.fst := by
      split <;> simp
    simp only [stored, ih]
    split <;> rfl

/-- The i-th store is to index `i`, up to the first byte for which there is no room. -/
theorem readStores_line (ring : Ring ttyCookBufSz buf front rear (line ++ 0 :: rest)) (text : (0 : Byte) ∉ line)
    (enough : line.length < fuel) : readStores buf count fuel front stores nread =
      some ((front + (line.length + 1)) % ttyCookBufSz, stores ++ (line.take (count - nread)).zipIdx nread,
        nread + line.length) := by
  induction line generalizing fuel front stores nread with
  | nil =>
    obtain ⟨fuel, rfl⟩ := Nat.exists_eq_succ_of_ne_zero (Nat.ne_zero_of_lt enough)
    have last := ring.pop.1
    simp [readStores, last, Ring.wrap_eq ring.front_lt]
  | cons ch line ih =>
    obtain ⟨fuel, rfl⟩ := Nat.exists_eq_succ_of_ne_zero (Nat.ne_zero_of_lt enough)
    obtain ⟨first, ring'⟩ := Ring.pop ring
    obtain ⟨nonzero, text⟩ := not_or.mp (mt List.mem_cons.mpr text)
    have round := @ih fuel ((front + 1) % ttyCookBufSz) (nread + 1)
      (if nread < count ∧ ch ≠ 0 then stores ++ [(ch, nread)] else stores) ring' text (Nat.lt_of_succ_lt_succ enough)
    rw [readStores]
    simp only [first, Ring.wrap_eq ring.front_lt, if_neg (Ne.symm nonzero), round]
    refine congrArg some (Prod.ext ?_ (Prod.ext ?_ ?_))
    · simp only [Nat.mod_add_mod, List.length_cons]
      congr 1
      omega
    · by_cases small : nread < count
      · rw [if_pos ⟨small, Ne.symm nonzero⟩, show count - nread = (count - (nread + 1)) + 1 by omega,
          List.take_succ_cons, List.zipIdx_cons, List.append_assoc, List.singleton_append]
      · rw [if_neg (fun h => small h.1), show count - nread = 0 by omega, show count - (nread + 1) = 0 by omega,
          List.take_zero, List.take_zero, List.zipIdx_nil, List.zipIdx_nil]
    · simp only [List.length_cons]
      omega

theorem readLoop_line {out : List Byte} (ring : Ring ttyCookBufSz buf front rear (line ++ 0 :: rest))
    (text : (0 : Byte) ∉ line) (enough : line.length < fuel) : readLoop buf count fuel front out nread =
      some ((front + (line.length + 1)) % ttyCookBufSz, out ++ line.take (count - nread), nread + line.length) := by
  have bytes := @readStores_bytes buf count fuel front nread (out.map fun ch => (ch, 0))
  rw [readStores_line ring text enough, List.map_map, Function.comp_def, List.map_id'] at bytes
  rw [bytes]
  simp [Function.comp_def]

/-- The queue without its first line. -/
theorem contains_drop (h : q.Contains (line ++ 0 :: rest)) :
    TtyQueue.Contains { q with front := (q.front + (line.length + 1)) % ttyCookBufSz } rest := by
  obtain ⟨ring, before⟩ := h
  constructor
  · have moved := @Ring.drop _ _ _ _ _ (line ++ [0]) rest (by simpa using ring)
    rwa [List.length_append, List.length_singleton] at moved
  · have last := ring.cells line.length 0 (by simp)
    simp only [Nat.mod_add_mod]
    rw [show q.front + (line.length + 1) + (ttyCookBufSz - 1) = q.front + line.length + ttyCookBufSz by
      have := bufSz_pos; omega, Nat.add_mod_right]
    exact last

/-! ### What each call does to the lines -/

theorem ttyRead_holds {count : Nat} (h : tty.queue.Holds (line :: lines) l) :
    ∃ queue, ttyRead tty count = some ({ tty with queue := queue }, line.take count, line.length) ∧
      queue.Holds lines l := by
  obtain ⟨⟨ring, before⟩, texts, text⟩ := h
  rw [queued_cons, List.append_assoc, List.cons_append] at ring
  have enough : line.length < ttyCookBufSz := by
    have bound := ring.room
    rw [List.length_append] at bound
    omega
  have loop := @readLoop_line _ _ count _ _ _ 0 _ [] ring (texts line List.mem_cons_self) enough
  refine ⟨_, ?_, contains_drop ⟨ring, before⟩, ?_, text⟩
  · rw [ttyRead, loop]
    simp
  · intro l' mem
    exact texts l' (List.mem_cons_of_mem _ mem)

/-- `tty_cook` types one character; it returns 1 for a backspace on an empty line only. -/
theorem ttyCook_holds {ret : Int} (h : tty.queue.Holds lines line) (nonzero : ch ≠ 0)
    (done : ttyCook tty ch = some (tty', ret)) :
    tty'.queue.Holds (typeChar (lines, line) ch).1 (typeChar (lines, line) ch).2 ∧
      tty'.cooked + lines.length = tty.cooked + (typeChar (lines, line) ch).1.length ∧
      ret = if ch = backspace ∧ line = [] then 1 else 0 := by
  obtain ⟨contains, texts, text⟩ := h
  unfold ttyCook at done
  unfold typeChar
  by_cases isNewline : ch = newline
  · subst isNewline
    rw [if_pos rfl] at done ⊢
    simp only [Option.bind_eq_bind, Option.bind_eq_some_iff] at done
    obtain ⟨q₁, first, q₂, second, done⟩ := done
    cases done
    obtain ⟨contains₁, -⟩ := ttyEnqueue_contains contains first
    obtain ⟨contains₂, -⟩ := ttyEnqueue_contains contains₁ second
    refine ⟨⟨?_, ?_, List.not_mem_nil⟩, ?_, rfl⟩
    · simpa [queued_append] using contains₂
    · intro l mem
      rcases List.mem_append.mp mem with old | new
      · exact texts l old
      · rw [List.mem_singleton.mp new]
        simpa [text] using nonzero.symm
    · simp only [List.length_append, List.length_singleton]
      omega
  · rw [if_neg isNewline] at done ⊢
    by_cases isBackspace : ch = backspace
    · rw [if_pos isBackspace] at done ⊢
      simp only [isBackspace, true_and]
      rcases List.eq_nil_or_concat line with rfl | ⟨init, x, rfl⟩
      · have guarded : ttyPopBack tty.queue = (tty.queue, 1) := by
          apply ttyPopBack_guard contains
          intro x last
          rcases List.eq_nil_or_concat lines with rfl | ⟨ls, l, rfl⟩
          · simp [queued] at last
          · rw [List.concat_eq_append, queued_append] at last
            simpa using last.symm
        rw [guarded] at done
        cases done
        exact ⟨⟨contains, texts, text⟩, rfl, rfl⟩
      · rw [List.concat_eq_append] at contains text ⊢
        rw [← List.append_assoc] at contains
        have xNonzero : x ≠ 0 := by
          rintro rfl
          exact text (by simp)
        obtain ⟨q', popped, contains'⟩ := ttyPopBack_contains contains xNonzero
        rw [popped] at done
        cases done
        refine ⟨⟨by simpa using contains', texts, ?_⟩, rfl, by simp⟩
        intro mem
        exact text (List.mem_append_left _ (by simpa using mem))
    · rw [if_neg isBackspace] at done ⊢
      simp only [Option.bind_eq_bind, Option.bind_eq_some_iff] at done
      obtain ⟨q₁, first, done⟩ := done
      cases done
      obtain ⟨contains₁, -⟩ := ttyEnqueue_contains contains first
      refine ⟨⟨by simpa using contains₁, texts, ?_⟩, rfl, by simp [isBackspace]⟩
      simpa [text] using nonzero.symm

/-! ### Runs -/

/-- A finished read: its `count`, what it stored to the buffer, and the value returned. -/
structure Read where
  count : Nat
  bytes : List Byte
  nread : Nat

/-- The tty, the reads that hold a token, the characters typed so far, and the reads finished so far. -/
structure Session where
  tty : Tty
  readers : List Nat
  typed : List Byte
  reads : List Read

inductive Key where
  | cook (ch : Byte) (ret : Int)
  | take (count : Nat)
  | read

inductive Typing : Session → Key → Session → Prop
  | cook {s : Session} {ch : Byte} {tty : Tty} {ret : Int} : ch ≠ 0 → ttyCook s.tty ch = some (tty, ret) →
      Typing s (.cook ch ret) { s with tty := tty, typed := s.typed ++ [ch] }
  | take {s : Session} (count : Nat) : 0 < s.tty.cooked →
      Typing s (.take count) { s with
        tty := { s.tty with cooked := s.tty.cooked - 1 }
        readers := count :: s.readers }
  | read {s : Session} {count nread : Nat} {tty : Tty} {bytes : List Byte} {l₁ l₂ : List Nat} :
      s.readers = l₁ ++ count :: l₂ → ttyRead s.tty count = some (tty, bytes, nread) →
      Typing s .read { s with
        tty := tty
        readers := l₁ ++ l₂
        reads := s.reads ++ [⟨count, bytes, nread⟩] }

/-- Runs from `tty_init` with a zero-filled buffer; a run goes no further than the panic. -/
def sessions : Machine Session Key where
  Init s := s = ⟨⟨⟨fun _ => 0, 0, 0⟩, 0⟩, [], [], []⟩
  Step := Typing

variable {s s' : Session} {key : Key}

def Read.Delivers (r : Read) (line : Line) : Prop := r.bytes = line.take r.count ∧ r.nread = line.length

/-- The completed lines are those delivered and those in the queue; each of the latter has a token or a reader. -/
structure Cooked (s : Session) (delivered pending : List Line) : Prop where
  lines : (typedLines s.typed).1 = delivered ++ pending
  queue : s.tty.queue.Holds pending (typedLines s.typed).2
  reads : List.Forall₂ Read.Delivers s.reads delivered
  tokens : s.tty.cooked + s.readers.length = pending.length

theorem cooked_typing {delivered pending : List Line} (h : Cooked s delivered pending) (step : Typing s key s') :
    ∃ delivered' pending', Cooked s' delivered' pending' := by
  cases step with
  | @cook ch tty ret nonzero done =>
    obtain ⟨queue, tokens, -⟩ := ttyCook_holds h.queue nonzero done
    have lines : (typeChar (typedLines s.typed) ch).1 = delivered ++
        (typeChar (pending, (typedLines s.typed).2) ch).1 := by
      unfold typeChar
      rw [h.lines]
      split
      · exact List.append_assoc ..
      · split <;> rfl
    have line : (typeChar (typedLines s.typed) ch).2 = (typeChar (pending, (typedLines s.typed).2) ch).2 := by
      unfold typeChar
      split
      · rfl
      · split <;> rfl
    refine ⟨delivered, (typeChar (pending, (typedLines s.typed).2) ch).1, ?_, ?_, h.reads, ?_⟩
    · rw [typedLines_append, lines]
    · rw [typedLines_append, line]
      exact queue
    · have before := h.tokens
      simp only
      omega
  | take count token =>
    refine ⟨delivered, pending, h.lines, h.queue, h.reads, ?_⟩
    have before := h.tokens
    simp only [List.length_cons]
    omega
  | @read count nread tty bytes l₁ l₂ here done =>
    have before := h.tokens
    rw [here, List.length_append, List.length_cons] at before
    cases pending with
    | nil => simp at before
    | cons line pending =>
      obtain ⟨queue, done', rest⟩ := @ttyRead_holds _ _ _ s.tty count h.queue
      rw [done] at done'
      cases done'
      refine ⟨delivered ++ [line], pending, ?_, rest, ?_, ?_⟩
      · rw [h.lines, List.append_assoc, List.singleton_append]
      · exact List.rel_append h.reads (.cons ⟨rfl, rfl⟩ .nil)
      · simp only [List.length_append, List.length_cons] at before ⊢
        omega

theorem cooked_reachable (h : sessions.Reachable s) : ∃ delivered pending, Cooked s delivered pending := by
  refine h.induct (fun s => ∃ delivered pending, Cooked s delivered pending) ?_ ?_
  · rintro s rfl
    exact ⟨[], [], rfl, ⟨⟨Ring.empty bufSz_pos, rfl⟩, by simp, List.not_mem_nil⟩, .nil, rfl⟩
  · rintro s key s' ⟨delivered, pending, h⟩ step
    exact cooked_typing h step

def TtyQueue.contents (q : TtyQueue) : List Byte := ringContents ttyCookBufSz q.buf q.front q.rear

/-- What a state shows of the lines typed. -/
structure Disciplined (s : Session) : Prop where
  /-- The k-th read delivers the k-th line. -/
  delivers : ∀ (k : Nat) (r : Read), s.reads[k]? = some r → ∃ line : Line, (typedLines s.typed).1[k]? = some line ∧
    r.nread = line.length ∧ (line.length ≤ r.count → r.bytes = line)
  returns : ∀ count ∈ s.readers, ∃ result, ttyRead s.tty count = some result
  waiting : s.tty.queue.contents = queued ((typedLines s.typed).1.drop s.reads.length) ++ (typedLines s.typed).2
  backspaced : ∀ tty ret, ttyCook s.tty backspace = some (tty, ret) →
    tty.queue.contents = queued ((typedLines s.typed).1.drop s.reads.length) ++ (typedLines s.typed).2.dropLast
  refuses : ∀ ch tty ret, ch ≠ 0 → ttyCook s.tty ch = some (tty, ret) →
    (ret = 1 ↔ ch = backspace ∧ (typedLines s.typed).2 = [])

theorem reachable_disciplined (h : sessions.Reachable s) : Disciplined s := by
  obtain ⟨delivered, pending, cooked⟩ := cooked_reachable h
  have rest : (typedLines s.typed).1.drop s.reads.length = pending := by
    rw [cooked.lines, cooked.reads.length_eq, List.drop_left]
  refine ⟨?_, ?_, ?_, ?_, ?_⟩
  · intro k r there
    obtain ⟨small, rfl⟩ := List.getElem?_eq_some_iff.mp there
    have small' : k < delivered.length := cooked.reads.length_eq ▸ small
    obtain ⟨bytes, nread⟩ := cooked.reads.get small small'
    refine ⟨delivered[k], ?_, nread, fun room => ?_⟩
    · rw [cooked.lines, List.getElem?_append_left small', List.getElem?_eq_getElem small']
    · exact bytes.trans (List.take_of_length_le room)
  · intro count mem
    have tokens := cooked.tokens
    have some_reader := List.length_pos_of_mem mem
    cases pending with
    | nil =>
      rw [List.length_nil] at tokens
      omega
    | cons line pending =>
      obtain ⟨queue, done, -⟩ := @ttyRead_holds _ _ _ s.tty count cooked.queue
      exact ⟨_, done⟩
  · rw [rest]
    exact cooked.queue.contains.ring.ringContents_eq
  · intro tty ret done
    obtain ⟨queue, -⟩ := ttyCook_holds cooked.queue (by decide) done
    rw [rest]
    exact queue.contains.ring.ringContents_eq
  · intro ch tty ret nonzero done
    obtain ⟨-, -, value⟩ := ttyCook_holds cooked.queue nonzero done
    rw [value]
    split
    · rename_i guarded
      exact iff_of_true rfl guarded
    · rename_i other
      exact iff_of_false (by decide) other

/-- "a", backspace, "b" and newline, then a read of 8 bytes. -/
theorem reachable_disciplined_sample : ∃ s : Session, s.reads = [⟨8, [98, 10], 2⟩] ∧ Disciplined s := by
  have start : sessions.Reachable ⟨⟨⟨fun _ => 0, 0, 0⟩, 0⟩, [], [], []⟩ := .init rfl
  have typed₁ := start.step (.cook (show (97 : Byte) ≠ 0 by decide) rfl)
  have typed₂ := typed₁.step (.cook (show (8 : Byte) ≠ 0 by decide) rfl)
  have typed₃ := typed₂.step (.cook (show (98 : Byte) ≠ 0 by decide) rfl)
  have typed₄ := typed₃.step (.cook (show (10 : Byte) ≠ 0 by decide) rfl)
  have taken := typed₄.step (.take 8 (by decide))
  have read := taken.step (.read (List.nil_append _).symm rfl)
  exact ⟨_, rfl, reachable_disciplined read⟩

end OsLabs.Devices

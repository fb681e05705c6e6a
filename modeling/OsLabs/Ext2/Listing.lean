import OsLabs.Data.CString
import OsLabs.Ext2.Directory

/-!
# Listing a directory

What `ext2_inode_read` does with a directory. Each live name is copied to where the
loop stands in the buffer, and its newline is appended to the buffer as a string.
-/

namespace OsLabs.Ext2
open Util

def newline : Byte := 10

/-- A store past the end of the caller's buffer, or a scan for a NUL that leaves it. -/
def inBuffer {α : Type} : Option α → Except Fault α
  | some a => .ok a
  | none => .error .bounds

/-- The loop of `ext2_inode_read` for a directory: the buffer, `ret` and `buf_offset`. -/
def listLoop (dev : Device) (inode : Inode) (fileOffset : Nat) :
    Nat → Nat → Nat → Nat → Nat → Nat → List Byte → Except Fault (List Byte × Nat × Nat)
  | 0, _, _, _, _, _, _ => .error .diverges
  | fuel + 1, cnt, size, offset, ret, bufOffset, buf =>
    if cnt < inode.dirLen ∧ size ≠ 0 then do
      let b ← inode.linkAt (offset / blockBytes)
      let cur := Entry.decode (dev.read (data b + offset % blockBytes) entryBytes)
      let next := (offset + cur.recLen) % 2 ^ 32
      if cur.fileType = XX then listLoop dev inode fileOffset fuel cnt size next ret bufOffset buf
      else do
        let nameOffset := offset + entryBytes
        let b ← inode.linkAt (nameOffset / blockBytes)
        let tmpName := dev.read (data b + nameOffset % blockBytes) cur.nameLen
        let cnt := cnt + 1
        if fileOffset < cnt then do
          let n ← match strlen tmpName with
            | some n => .ok n
            | none => .error .unread
          let buf ← inBuffer (strncpy buf bufOffset tmpName n)
          let buf ← inBuffer (strcat buf [newline])
          listLoop dev inode fileOffset fuel cnt (size - 1) next (ret + 1) (bufOffset + (n + 1)) buf
        else listLoop dev inode fileOffset fuel cnt size next ret bufOffset buf
    else .ok (buf, ret, bufOffset)

/-- `ext2_inode_read` of a directory: the buffer afterwards and the value returned. A loop that ends is at each
offset once for every count of entries. -/
def inodeList (dev : Device) (file : File) (buf : List Byte) (size : Nat) : Except Fault (List Byte × Nat) := do
  let inode := file.inode.fsInode
  let (buf, ret, bufOffset) ← listLoop dev inode file.offset ((inode.dirLen + 1) * (linkSlots * blockBytes + 1))
      0 size 0 0 0 buf
  let buf ← inBuffer (poke buf bufOffset [0])
  .ok (buf, ret)

/-! ### Names in a buffer -/

def listing (names : List (List Byte)) : List Byte := names.flatMap (· ++ [newline])

/-- Each name is copied, and a newline appended to the whole. -/
def putNames : List Byte → Nat → List (List Byte) → Option (List Byte × Nat)
  | buf, offset, [] => some (buf, offset)
  | buf, offset, name :: names => do
    let buf ← poke buf offset name
    let buf ← strcat buf [newline]
    putNames buf (offset + (name.length + 1)) names

/-- Behind each name the buffer holds, as a string, nothing or a text that starts with a newline and has room for
another: there a newline that is appended stands right behind the name. -/
def Clear : List Byte → List (List Byte) → Prop
  | _, [] => True
  | tail, name :: names => ∃ rest, strcat (tail.drop name.length) [newline] = some (newline :: rest) ∧ Clear rest names

variable {dev : Device} {inode : Inode} {records before rest : List Record} {names : List (List Byte)}
  {text tail buf buf' final : List Byte} {fuel cnt size ret offset bufOffset : Nat}

/-- A newline that is appended to a string, and the first byte of the result. -/
theorem append_newline (done : strcat tail [newline] = some buf) :
    ∃ c rest, buf = c :: rest ∧ c ≠ 0 ∧ rest.length + 1 = tail.length := by
  have same := strcat_length done
  cases buf with
  | nil =>
    obtain rfl := List.length_eq_zero_iff.mp same.symm
    cases done
  | cons c rest =>
    refine ⟨c, rest, rfl, ?_, same⟩
    rcases strcat_head done with rfl | other
    · decide
    · exact other

theorem putNames_cons {name : List Byte} (plainText : 0 ∉ text) (plain : 0 ∉ name) :
    putNames (text ++ tail) text.length (name :: names) =
      if name.length ≤ tail.length then
        (strcat (tail.drop name.length) [newline]).bind fun buf =>
          putNames (text ++ (name ++ buf)) (text.length + (name.length + 1)) names
      else none := by
  have copied : poke (text ++ tail) text.length name =
      if name.length ≤ tail.length then some ((text ++ name) ++ tail.drop name.length) else none := by
    have behind := @poke_behind text tail name 0
    rw [Nat.add_zero, poke_start] at behind
    rw [behind]
    split
    · rw [Option.map_some, List.append_assoc]
    · rfl
  have both : 0 ∉ text ++ name := by
    rw [List.mem_append]
    exact not_or.mpr ⟨plainText, plain⟩
  rw [putNames, copied]
  split
  · show (strcat ((text ++ name) ++ tail.drop name.length) [newline]).bind _ = _
    rw [strcat_append both]
    cases strcat (tail.drop name.length) [newline] with
    | none => rfl
    | some buf => simp [List.append_assoc]
  · rfl

/-- What was put behind the names before stays. -/
theorem putNames_keeps (plainText : 0 ∉ text) (plain : ∀ name ∈ names, 0 ∉ name)
    (done : putNames (text ++ tail) text.length names = some (buf, offset)) :
    ∃ rest, buf = text ++ rest ∧ text.length ≤ offset := by
  induction names generalizing text tail with
  | nil =>
    obtain ⟨rfl, rfl⟩ := Prod.mk.inj (Option.some.inj done)
    exact ⟨tail, rfl, Nat.le_refl _⟩
  | cons name names ih =>
    rw [putNames_cons plainText (plain name List.mem_cons_self)] at done
    split at done
    · obtain ⟨line, appended, done⟩ := Option.bind_eq_some_iff.mp done
      obtain ⟨c, rest, rfl, other, -⟩ := append_newline appended
      have plainLine : 0 ∉ text ++ (name ++ [c]) := by
        simp only [List.mem_append, List.mem_singleton, not_or]
        exact ⟨plainText, plain name List.mem_cons_self, Ne.symm other⟩
      obtain ⟨rest', rfl, le⟩ :=
        @ih (text ++ (name ++ [c])) rest plainLine (fun n mem => plain n (List.mem_cons_of_mem name mem))
        (by simpa using done)
      refine ⟨name ++ [c] ++ rest', by simp, ?_⟩
      simp only [List.length_append] at le
      omega
    · cases done

/-- The names are put one behind the other, each with its newline, exactly when the buffer is clear for them. -/
theorem putNames_iff (plainText : 0 ∉ text) (plain : ∀ name ∈ names, 0 ∉ name) :
    (∃ final, ((putNames (text ++ tail) text.length names).bind fun r => poke r.1 r.2 [0]) = some final ∧
      text ++ (listing names ++ [0]) <+: final) ↔ (listing names).length < tail.length ∧ Clear tail names := by
  induction names generalizing text tail with
  | nil =>
    have behind := @poke_behind text tail [0] 0
    rw [Nat.add_zero, poke_start] at behind
    simp only [putNames, Option.bind_some, behind, List.length_singleton, listing, List.flatMap_nil, List.nil_append,
      List.length_nil, Clear, and_true]
    constructor
    · rintro ⟨final, done, -⟩
      by_contra none
      rw [if_neg (by omega)] at done
      cases done
    · intro some
      rw [if_pos (by omega)]
      exact ⟨_, rfl, by simp⟩
  | cons name names ih =>
    have plainName := plain name List.mem_cons_self
    have plainRest := fun n mem => plain n (List.mem_cons_of_mem name mem)
    have lines : listing (name :: names) = name ++ (newline :: listing names) := by simp [listing]
    rw [putNames_cons plainText plainName, lines]
    constructor
    · rintro ⟨final, done, stored⟩
      split at done
      · rename_i room
        obtain ⟨⟨buf, offset⟩, put, done⟩ := Option.bind_eq_some_iff.mp done
        obtain ⟨line, appended, put⟩ := Option.bind_eq_some_iff.mp put
        obtain ⟨c, rest, rfl, other, length⟩ := append_newline appended
        have plainLine : 0 ∉ text ++ (name ++ [c]) := by
          simp only [List.mem_append, List.mem_singleton, not_or]
          exact ⟨plainText, plainName, Ne.symm other⟩
        have put' : putNames ((text ++ (name ++ [c])) ++ rest) (text ++ (name ++ [c])).length names =
            some (buf, offset) := by
          simpa using put
        obtain ⟨rest', rfl, le⟩ := putNames_keeps plainLine plainRest put'
        -- The byte behind the name is not stored to again, so it is the newline at once.
        have here : text ++ (name ++ [c]) = text ++ (name ++ [newline]) := by
          have wanted : text ++ (name ++ [newline]) <+: final :=
            List.IsPrefix.trans ⟨listing names ++ [0], by simp⟩ stored
          exact (List.prefix_of_prefix_length_le (prefix_of_poke le done) wanted (by simp)).eq_of_length (by simp)
        obtain rfl : c = newline := by simpa using here
        obtain ⟨room', clear⟩ := (ih plainLine plainRest).mp
          ⟨final, Option.bind_eq_some_iff.mpr ⟨_, put', done⟩, by simpa using stored⟩
        rw [List.length_drop] at length
        exact ⟨by rw [List.length_append, List.length_cons]; omega, rest, appended, clear⟩
      · cases done
    · rintro ⟨room, rest, appended, clear⟩
      have length := strcat_length appended
      rw [List.length_append, List.length_cons] at room
      rw [List.length_cons, List.length_drop] at length
      have plainLine : 0 ∉ text ++ (name ++ [newline]) := by
        simp only [List.mem_append, List.mem_singleton, not_or]
        exact ⟨plainText, plainName, by decide⟩
      obtain ⟨final, done, stored⟩ := (ih plainLine plainRest).mpr ⟨by omega, clear⟩
      refine ⟨final, ?_, by simpa using stored⟩
      rw [if_pos (by omega), appended]
      simpa using done

/-! ### The records of one block -/

def liveNames (records : List Record) : List (List Byte) := (records.filter (·.Live)).map (·.name)

theorem length_liveNames : (liveNames records).length = records.countP (·.Live) := by
  rw [liveNames, List.length_map, List.countP_eq_length_filter]

/-- In one block no header crosses the end of a block. -/
theorem Listed.laid (h : Listed dev inode records) (block : inode.size ≤ blockBytes) : Laid dev inode records := by
  refine ⟨h, fun before r rest split => ?_⟩
  have inside := h.inside split
  rw [Nat.mod_eq_of_lt (by omega)]
  omega

namespace Laid

variable {r : Record}

/-- In the first block a name is read as it stands there. -/
theorem raw_name (h : Laid dev inode records) (block : inode.size ≤ blockBytes)
    (split : records = before ++ r :: rest) :
    ∃ b, inode.linkAt (((before.flatMap Record.bytes).length + entryBytes) / blockBytes) = .ok b ∧
      dev.read (data b + ((before.flatMap Record.bytes).length + entryBytes) % blockBytes) (r.name.length + 1) =
        r.name ++ [0] := by
  have inside := h.inside split
  have first : ((before.flatMap Record.bytes).length + entryBytes) / blockBytes = 0 := Nat.div_eq_of_lt (by omega)
  have low : ((before.flatMap Record.bytes).length + entryBytes) % blockBytes =
      (before.flatMap Record.bytes).length + entryBytes := Nat.mod_eq_of_lt (by omega)
  refine ⟨_, Inode.linkAt_eq (by rw [first]; decide), ?_⟩
  have read := @read_chunk dev inode ((before.flatMap Record.bytes).length + entryBytes) (r.name.length + 1) (by omega)
    (by omega)
  rw [← List.drop_drop, h.drop split, Record.bytes, List.append_assoc, List.drop_left' (length_encodeEntry _),
    List.take_left' (by simp)] at read
  exact read

theorem listLoop (h : Laid dev inode records) (block : inode.size ≤ blockBytes) (split : records = before ++ rest)
    (counted : inode.dirLen = cnt + rest.countP (·.Live)) (room : rest.countP (·.Live) ≤ size)
    (enough : rest.length < fuel) :
    listLoop dev inode 0 fuel cnt size (before.flatMap Record.bytes).length ret bufOffset buf =
      inBuffer ((putNames buf bufOffset (liveNames rest)).map fun r => (r.1, ret + rest.countP (·.Live), r.2)) := by
  induction fuel generalizing before rest cnt size ret bufOffset buf with
  | zero => omega
  | succ fuel ih =>
    by_cases some : rest.countP (·.Live) = 0
    · have none : liveNames rest = [] := List.eq_nil_of_length_eq_zero (length_liveNames.trans some)
      rw [Ext2.listLoop, if_neg (by omega), none, some]
      rfl
    cases rest with
    | nil => exact absurd rfl some
    | cons r rest =>
      obtain ⟨inside, slot, decoded⟩ := h.header split
      have split' : records = (before ++ [r]) ++ rest := by rw [split]; simp
      have enough' : rest.length < fuel := by rw [List.length_cons] at enough; omega
      rw [Ext2.listLoop, if_pos (by omega), slot]
      simp only [bind, Except.bind, decoded, h.next split]
      have type : r.entry.fileType = r.type := rfl
      have nameLen : r.entry.nameLen = r.name.length + 1 := rfl
      by_cases gone : r.type = XX
      · have live : ¬r.Live := fun live => live gone
        have count : (r :: rest).countP (·.Live) = rest.countP (·.Live) := List.countP_cons_of_neg (by simpa using live)
        have names : liveNames (r :: rest) = liveNames rest := by simp [liveNames, live]
        rw [type, if_pos gone, names, count]
        rw [count] at counted room
        exact ih split' counted room enough'
      · have live : r.Live := gone
        have count : (r :: rest).countP (·.Live) = rest.countP (·.Live) + 1 :=
          List.countP_cons_of_pos (by simpa using live)
        have names : liveNames (r :: rest) = r.name :: liveNames rest := by simp [liveNames, live]
        have plain := (h.plain r (by rw [split]; simp)).1
        obtain ⟨b, slot', read⟩ := h.raw_name block split
        rw [type, if_neg gone, slot', names, count]
        rw [count] at counted room
        simp only [nameLen, read, strlen_string plain, if_pos (Nat.succ_pos cnt), strncpy, strncpyBytes_string plain]
        rw [putNames]
        cases copied : poke buf bufOffset r.name with
        | none => simp [copied, inBuffer]
        | some copy =>
          cases appended : strcat copy [newline] with
          | none => simp [copied, appended, inBuffer]
          | some line =>
            have later :=
              @ih (before ++ [r]) rest line (cnt + 1) (size - 1) (ret + 1) (bufOffset + (r.name.length + 1)) split'
              (by omega) (by omega) enough'
            simp only [copied, appended, inBuffer, later, Option.bind_some, bind]
            rw [Nat.add_right_comm, Nat.add_assoc]

end Laid

/-- The buffer starts with the live names in the order of their records, a newline after each and a NUL at the end, and
their number is returned. -/
def Lists (dev : Device) (file : File) (records : List Record) (buf : List Byte) (size : Nat) : Prop :=
  ∃ buf', inodeList dev file buf size = .ok (buf', records.countP (·.Live)) ∧
    listing (liveNames records) ++ [0] <+: buf'

theorem inodeList_eq {file : File} (h : Laid dev file.inode.fsInode records)
    (block : file.inode.fsInode.size ≤ blockBytes)
    (counted : file.inode.fsInode.dirLen = records.countP (·.Live)) (start : file.offset = 0)
    (enough : file.inode.fsInode.dirLen ≤ size) : inodeList dev file buf size =
      inBuffer (((putNames buf 0 (liveNames records)).bind fun r => poke r.1 r.2 [0]).map fun final =>
        (final, records.countP (·.Live))) := by
  have few := length_le_bytes records
  rw [← h.size_eq] at few
  have fuel : records.length < (file.inode.fsInode.dirLen + 1) * (linkSlots * blockBytes + 1) := by
    rw [Nat.add_mul]
    simp only [linkSlots, blockBytes] at *
    omega
  have loop := @Laid.listLoop dev _ records [] records buf _ 0 size 0 0 h block rfl (by rw [counted, Nat.zero_add])
    (counted ▸ enough) fuel
  rw [List.flatMap_nil, List.length_nil] at loop
  simp only [inodeList, start, loop, Nat.zero_add]
  cases putNames buf 0 (liveNames records) with
  | none => rfl
  | some r =>
    simp only [Option.map_some, inBuffer, bind, Except.bind, Option.bind_some]
    cases poke r.1 r.2 [0] <;> rfl

/-- A directory of one block is listed exactly when the buffer has room and is clear where the newlines go. -/
theorem inodeList_iff (dev : Device) (file : File) (records : List Record) (buf : List Byte) (size : Nat)
    (listed : Listed dev file.inode.fsInode records) (block : file.inode.fsInode.size ≤ blockBytes)
    (counted : file.inode.fsInode.dirLen = records.countP (·.Live)) (start : file.offset = 0)
    (enough : file.inode.fsInode.dirLen ≤ size) :
    Lists dev file records buf size ↔
      (listing (liveNames records)).length < buf.length ∧ Clear buf (liveNames records) := by
  have plain : ∀ name ∈ liveNames records, 0 ∉ name := by
    intro name mem
    obtain ⟨r, live, rfl⟩ := List.mem_map.mp mem
    exact (listed.plain r (List.mem_of_mem_filter live)).1
  have put := @putNames_iff (liveNames records) [] buf (by simp) plain
  rw [← put, Lists, inodeList_eq (listed.laid block) block counted start enough]
  simp only [List.nil_append, List.length_nil]
  constructor
  · rintro ⟨buf', done, stored⟩
    cases result : (putNames buf 0 (liveNames records)).bind fun r => poke r.1 r.2 [0] with
    | none =>
      rw [result] at done
      cases done
    | some final =>
      rw [result] at done
      obtain ⟨rfl, -⟩ := Prod.mk.inj (Except.ok.inj done)
      exact ⟨_, rfl, stored⟩
  · rintro ⟨final, done, stored⟩
    exact ⟨final, by rw [done]; rfl, stored⟩

def dotRecord : Record := ⟨1, dot, DR⟩

def dotDevice : Device := Mem.write (fun _ => 0) (data 0) dotRecord.bytes

def dotFile : File := ⟨updateInode { freshDir with size := 18, len := 1, dirLen := 1 }, 0⟩

theorem dotFile_listed : Listed dotDevice dotFile.inode.fsInode [dotRecord] :=
  ⟨by decide, by decide, by decide +kernel, by decide⟩

theorem inodeList_iff_sample : Lists dotDevice dotFile [dotRecord] [0, 0, 0] 1 ↔
    (listing (liveNames [dotRecord])).length < 3 ∧ Clear [0, 0, 0] (liveNames [dotRecord]) :=
  inodeList_iff dotDevice dotFile [dotRecord] [0, 0, 0] 1 dotFile_listed (by decide) (by decide) rfl (by decide)

/-- In a buffer that holds "xxx" the newline is appended to that, behind the NUL that ends the listing. -/
theorem inodeList_counterexample : Listed dotDevice dotFile.inode.fsInode [dotRecord] ∧
    ¬Lists dotDevice dotFile [dotRecord] [120, 120, 120, 0, 0] 1 := by
  refine ⟨dotFile_listed, fun ⟨buf', done, stored⟩ => ?_⟩
  rw [inodeList_eq (dotFile_listed.laid (by decide)) (by decide) (by decide) rfl (by decide)] at done
  have result : (putNames [120, 120, 120, 0, 0] 0 (liveNames [dotRecord])).bind (fun r => poke r.1 r.2 [0]) =
      some [46, 120, 0, 10, 0] := by decide
  rw [result] at done
  obtain ⟨rfl, -⟩ := Prod.mk.inj (Except.ok.inj done)
  exact absurd stored (by decide)

end OsLabs.Ext2

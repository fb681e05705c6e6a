import OsLabs.Ext2.Path

/-!
# Opening, seeking and reading

`ext2_lookup`, `ext2_inode_open`, `ext2_inode_lseek` and what `ext2_inode_read` does
with a regular file. A descriptor has its own copy of the inode, taken when it is
opened.
-/

namespace OsLabs.Ext2
open Util

/-! ### Operations -/

def updateInode (extinode : Inode) : VfsInode where
  fsInode := extinode
  permission := extinode.permission
  size := extinode.size
  id := extinode.id
  type := extinode.type
  dirLen := extinode.dirLen
  linkNum := extinode.linkNum

def lookup (dev : Device) (name : List Byte) : Except Fault (Option VfsInode) := do
  match ← inodeLookup dev (some name) with
  | some tmp => .ok (some (updateInode tmp))
  | none => .ok none

/-- `vfs_open` without `O_CREAT`: the lookup and `ext2_inode_open`. -/
def openFile (dev : Device) (name : List Byte) : Except Fault (Option File) := do
  match ← lookup dev name with
  | some cur => .ok (some ⟨cur, 0⟩)
  | none => .ok none

/-- `S_SET`, `S_CUR`, `S_END`, and every other value of `whence`. -/
inductive Whence where
  | set | cur | tail | other

/-- The file, and the value returned, an `off_t`; `S_CUR` adds to an `uint64_t`, `S_END` to an `int`. -/
def inodeLseek (file : File) (offset : Int) (whence : Whence) : File × Int :=
  let size := asInt file.inode.size
  let tOffset := match whence with
    | .set => max (min offset size) 0
    | .cur => (max (min ((file.offset + offset) % 2 ^ 64) (size % 2 ^ 64)) 0).bmod (2 ^ 32)
    | .tail => max (min ((size + offset).bmod (2 ^ 32)) size) 0
    | .other => -1
  ({ file with offset := (tOffset % 2 ^ 64).toNat }, tOffset)

/-- The loop of `ext2_inode_read`: a chunk is never cut to what is left of the request, a `size_t`. -/
def inodeReadLoop (dev : Device) (inode : Inode) : Nat → Nat → Nat → Nat → Bool → Except Fault (List Byte)
  | 0, _, _, _, _ => .error .diverges
  | fuel + 1, cnt, size, offset, first =>
    if offset < inode.size ∧ size ≠ 0 then do
      let left := readLeft inode cnt offset first
      if left < 0 then .error .bounds
      else
        let b ← inode.linkAt (offset / blockBytes)
        let bytes := dev.read (data b + offset % blockBytes) left.toNat
        let rest ← inodeReadLoop dev inode fuel (cnt + 1) ((size + 2 ^ 32 - left.toNat) % 2 ^ 32)
            (offset + left.toNat) false
        .ok (bytes ++ rest)
    else .ok []

/-- What `ext2_inode_read` stores in the buffer, for a regular file; `before` is the byte in front of the buffer. -/
def inodeRead (dev : Device) (file : File) (size : Nat) (before : Byte) : Except Fault (List Byte) := do
  let inode := file.inode.fsInode
  let offset := file.offset % 2 ^ 32
  let bytes ← inodeReadLoop dev inode (inode.size + 1) (offset / blockBytes) size offset true
  .ok (bytes ++ if (bytes.getLast?.getD before) ≠ 10 then [10, 0] else [0])

/-! ### Reading -/

variable {dev dev' : Device} {inode : Inode} {file : File} {n cnt offset fuel : Nat} {first : Bool}

/-- A chunk ends with its block or past the end of the file, and as far as the file goes it is in one block. -/
theorem readLeft_chunk (hlen : inode.len ≤ linkSlots) (covered : inode.size ≤ inode.len * blockBytes)
    (inside : offset < inode.size) (aligned : first = false → offset % blockBytes = 0) :
    ∃ left : Nat, readLeft inode (offset / blockBytes) offset first = left ∧ 0 < left ∧
      offset % blockBytes + min left (inode.size - offset) ≤ blockBytes ∧
      (inode.size ≤ offset + left ∨ (offset + left) % blockBytes = 0 ∧
        (offset + left) / blockBytes = offset / blockBytes + 1) := by
  by_cases inner : offset / blockBytes < inode.len - 1
  · refine ⟨_, readLeft_inner hlen inner aligned, ?_⟩
    simp only [blockBytes] at *
    omega
  · cases first with
    | true =>
      refine ⟨_, readLeft_last hlen covered inside (Nat.not_lt.mp inner), ?_⟩
      simp only [blockBytes] at *
      omega
    | false =>
      have start := aligned rfl
      simp only [blockBytes] at *
      refine ⟨_, readLeft_later hlen covered (by omega) (Nat.not_lt.mp inner) (by omega), ?_⟩
      omega

theorem drop_contents : (contents dev inode).drop offset =
    (List.range (inode.size - offset)).map fun i => byteAt dev inode (offset + i) := by
  apply List.ext_getElem
  · simp [contents]
  · intro i _ _
    simp [contents]

theorem take_chunk {left k : Nat} (le : k ≤ left) (inside : offset + k ≤ inode.size)
    (room : offset % blockBytes + k ≤ blockBytes) :
    (dev.read (data (inode.slot (offset / blockBytes)) + offset % blockBytes) left).take k =
      ((contents dev inode).drop offset).take k := by
  obtain ⟨rest, rfl⟩ := Nat.exists_eq_add_of_le le
  rw [Mem.read_add, List.take_left' Mem.read_length, read_block room, drop_contents, ← List.map_take, List.take_range,
    Nat.min_eq_left (by omega)]

theorem read_chunk {left : Nat} (inside : offset + left ≤ inode.size) (room : offset % blockBytes + left ≤ blockBytes) :
    dev.read (data (inode.slot (offset / blockBytes)) + offset % blockBytes) left =
      ((contents dev inode).drop offset).take left := by
  rw [← take_chunk (Nat.le_refl left) inside room, List.take_of_length_le (Nat.le_of_eq Mem.read_length)]

/-- A round of the loop, and the rest of it. -/
theorem inodeReadLoop_chunk {left : Nat} {rest : List Byte} (more : offset < inode.size ∧ n ≠ 0)
    (asked : readLeft inode (offset / blockBytes) offset first = left) (slot : offset / blockBytes < linkSlots)
    (done : inodeReadLoop dev inode fuel (offset / blockBytes + 1) ((n + 2 ^ 32 - left) % 2 ^ 32)
      (offset + left) false =
      .ok rest) : inodeReadLoop dev inode (fuel + 1) (offset / blockBytes) n offset first =
      .ok (dev.read (data (inode.slot (offset / blockBytes)) + offset % blockBytes) left ++ rest) := by
  rw [inodeReadLoop, if_pos more]
  simp only [asked, if_neg (Int.not_lt.mpr (Int.natCast_nonneg left)), Int.toNat_natCast, Inode.linkAt_eq slot, done,
    bind, Except.bind]

/-- The loop stores what the request asks for of the rest of the file, and perhaps more. -/
theorem inodeReadLoop_stores (hlen : inode.len ≤ linkSlots) (covered : inode.size ≤ inode.len * blockBytes)
    (small : n < 2 ^ 32) (aligned : first = false → offset < inode.size → offset % blockBytes = 0)
    (counted : cnt = offset / blockBytes ∨ inode.size ≤ offset) (enough : inode.size - offset < fuel) :
    ∃ bytes, inodeReadLoop dev inode fuel cnt n offset first = .ok bytes ∧
      ((contents dev inode).drop offset).take n <+: bytes := by
  induction fuel generalizing n offset cnt first with
  | zero => omega
  | succ fuel ih =>
    by_cases more : offset < inode.size ∧ n ≠ 0
    · obtain ⟨inside, some⟩ := more
      obtain rfl : cnt = offset / blockBytes := counted.resolve_right (by omega)
      obtain ⟨left, eq, pos, room, next⟩ := readLeft_chunk hlen covered inside (fun again => aligned again inside)
      have slot : offset / blockBytes < linkSlots := by
        have := Nat.mul_le_mul_right blockBytes hlen
        simp only [blockBytes, linkSlots] at *
        omega
      obtain ⟨rest, done, pre⟩ := @ih ((n + 2 ^ 32 - left) % 2 ^ 32) (offset / blockBytes + 1) (offset + left) false
        (Nat.mod_lt _ (by decide)) (fun _ inside' => (next.resolve_left (by omega)).1)
          (next.symm.imp_left fun aligned => aligned.2.symm) (by omega)
      refine ⟨_, inodeReadLoop_chunk ⟨inside, some⟩ eq slot done, ?_⟩
      by_cases last : min n (inode.size - offset) ≤ left
      · have cut : ((contents dev inode).drop offset).take n =
            ((contents dev inode).drop offset).take (min n (inode.size - offset)) := by
          rw [← List.take_take, List.take_of_length_le (i := inode.size - offset)
            (by rw [List.length_drop, length_contents])]
        rw [cut, ← take_chunk last (by omega) (by omega)]
        exact (List.take_prefix _ _).trans (List.prefix_append _ _)
      · obtain ⟨aligned', -⟩ := next.resolve_left (by omega)
        have left_le : (n + 2 ^ 32 - left) % 2 ^ 32 = n - left := by omega
        rw [left_le] at pre
        rw [← Nat.add_sub_cancel' (show left ≤ n by omega), List.take_add, List.drop_drop,
          ← read_chunk (by omega) (by omega)]
        exact (List.prefix_append_right_inj _).mpr pre
    · refine ⟨[], by rw [inodeReadLoop, if_neg more], ?_⟩
      by_cases inside : offset < inode.size
      · obtain rfl : n = 0 := by omega
        exact List.prefix_refl []
      · have ended : (contents dev inode).drop offset = [] := List.drop_of_length_le (by rw [length_contents]; omega)
        simp [ended]

/-- The offsets that `ext2_inode_lseek` leaves; a `whence` it does not know leaves -1. -/
def Placed (size offset : Nat) : Prop := offset ≤ size ∨ offset = 2 ^ 64 - 1

theorem inodeRead_stores {before : Byte} (hlen : file.inode.fsInode.len ≤ linkSlots)
    (covered : file.inode.fsInode.size ≤ file.inode.fsInode.len * blockBytes) (small : n < 2 ^ 32)
    (placed : Placed file.inode.fsInode.size file.offset) : ∃ stored, inodeRead dev file n before = .ok stored ∧
      ((contents dev file.inode.fsInode).drop file.offset).take n <+: stored := by
  obtain ⟨bytes, done, pre⟩ := @inodeReadLoop_stores dev file.inode.fsInode n (file.offset % 2 ^ 32 / blockBytes)
    (file.offset % 2 ^ 32) (file.inode.fsInode.size + 1) true hlen covered small (fun again => Bool.noConfusion again)
    (.inl rfl) (by omega)
  refine ⟨bytes ++ if bytes.getLast?.getD before ≠ 10 then [10, 0] else [0], ?_, ?_⟩
  · simp only [inodeRead, done, bind, Except.bind]
  · have low := Nat.le_trans covered (Nat.mul_le_mul_right blockBytes hlen)
    simp only [linkSlots, blockBytes] at low
    refine List.IsPrefix.trans ?_ (List.prefix_append _ _)
    rcases placed with inside | beyond
    · rwa [Nat.mod_eq_of_lt (by omega)] at pre
    · rw [List.drop_of_length_le (by rw [length_contents, beyond]; omega), List.take_nil]
      exact List.nil_prefix

/-! ### Reads of whole blocks -/

/-- What is asked for ends with a block in front of the last. -/
def StopsEarly (inode : Inode) (offset size : Nat) : Prop :=
  offset + size ≤ (inode.len - 1) * blockBytes ∧ (offset + size) % blockBytes = 0

theorem StopsEarly.rest {size : Nat} (h : StopsEarly inode offset size) (small : size < 2 ^ 32) (some : size ≠ 0) :
    blockBytes - offset % blockBytes ≤ size ∧
      (size + 2 ^ 32 - (blockBytes - offset % blockBytes)) % 2 ^ 32 = size - (blockBytes - offset % blockBytes) := by
  simp only [StopsEarly, blockBytes] at *
  omega

/-- It asks for the rest of the block. -/
theorem StopsEarly.next {size : Nat} (h : StopsEarly inode offset size) (small : size < 2 ^ 32) (some : size ≠ 0) :
    StopsEarly inode (offset + (blockBytes - offset % blockBytes))
      ((size + 2 ^ 32 - (blockBytes - offset % blockBytes)) % 2 ^ 32) := by
  obtain ⟨enough, rest⟩ := h.rest small some
  have same : offset + (blockBytes - offset % blockBytes) + (size - (blockBytes - offset % blockBytes)) =
      offset + size := by
    omega
  rw [rest, StopsEarly, same]
  exact h

theorem inodeLseek_placed {offset : Int} {whence : Whence} (small : file.inode.size < 2 ^ 31) :
    Placed file.inode.size (inodeLseek file offset whence).1.offset := by
  have size : asInt file.inode.size = file.inode.size := asInt_small small
  cases whence with
  | set =>
    left
    simp only [inodeLseek, size]
    omega
  | cur =>
    left
    simp only [inodeLseek, size]
    rw [bmod_small (by omega) (by omega)]
    omega
  | tail =>
    left
    simp only [inodeLseek, size]
    omega
  | other => exact .inr rfl

/-! ### Values returned -/

/-- `vfs_read` of a regular file: what `ext2_inode_read` stores, the file afterwards, and the value returned. -/
def fileRead (dev : Device) (file : File) (nbyte : Nat) (before : Byte) : Except Fault (List Byte × File × Int) := do
  let stored ← inodeRead dev file nbyte before
  .ok (stored, file, 0)

/-- No more than the buffer holds is stored, the bytes that `ext2_data_read` finds come first, and their number is
returned and added to the offset. -/
def ReadAnswers (dev : Device) (file : File) (nbyte : Nat) (before : Byte) : Prop :=
  ∃ stored file' ret bytes, fileRead dev file nbyte before = .ok (stored, file', ret) ∧ stored.length ≤ nbyte ∧
    dataRead dev file.inode.fsInode nbyte (file.offset % 2 ^ 32) = .ok bytes ∧ bytes <+: stored ∧ ret = bytes.length ∧
    file'.offset = file.offset + bytes.length

/-- The number of bytes is returned and added to the offset. -/
def WriteAnswers (dev : Device) (file : File) (buf : List Byte) : Prop :=
  ∃ dev' file', inodeWrite dev file buf = .ok (dev', file', buf.length) ∧ file'.offset = file.offset + buf.length

theorem readLoop_nil (done : readLoop dev inode fuel cnt n offset first = .ok []) : inode.size ≤ offset ∨ n = 0 := by
  induction fuel generalizing cnt n offset first with
  | zero => cases done
  | succ fuel ih =>
    by_contra more
    rw [readLoop, if_pos (by omega)] at done
    generalize min (readLeft inode cnt offset first) n = left at done
    simp only at done
    split at done
    · cases done
    · obtain ⟨b, -, done⟩ := bind_ok done
      obtain ⟨rest, later, done⟩ := bind_ok done
      obtain ⟨none, rfl⟩ := List.append_eq_nil_iff.mp (Except.ok.inj done)
      have zero : left.toNat = 0 := by
        have length := congrArg List.length none
        rwa [Mem.read_length] at length
      rw [zero] at later
      exact more (ih later)

theorem inodeRead_end {before : Byte} (past : file.inode.fsInode.size ≤ file.offset % 2 ^ 32) :
    inodeRead dev file n before = .ok (if before ≠ 10 then [10, 0] else [0]) := by
  have loop : inodeReadLoop dev file.inode.fsInode (file.inode.fsInode.size + 1) (file.offset % 2 ^ 32 / blockBytes) n
      (file.offset % 2 ^ 32) true = .ok [] := by
    rw [inodeReadLoop, if_neg (by omega)]
  simp only [inodeRead, loop, bind, Except.bind]
  rfl

theorem readAnswers_iff {before : Byte} : ReadAnswers dev file n before ↔
    file.inode.fsInode.size ≤ file.offset % 2 ^ 32 ∧ (2 ≤ n ∨ n = 1 ∧ before = 10) := by
  constructor
  · rintro ⟨stored, file', ret, bytes, done, room, read, -, count, -⟩
    obtain ⟨stored', inner, done⟩ := bind_ok done
    obtain ⟨rfl, same⟩ := Prod.mk.inj (Except.ok.inj done)
    obtain ⟨rfl, rfl⟩ := Prod.mk.inj same
    obtain rfl : bytes = [] := List.eq_nil_of_length_eq_zero (by omega)
    have terminated : 0 < stored'.length := by
      obtain ⟨bytes, -, inner⟩ := bind_ok inner
      obtain rfl := Except.ok.inj inner
      rw [List.length_append]
      split <;> simp
    have past := (readLoop_nil read).resolve_right (by omega)
    rw [inodeRead_end past] at inner
    obtain rfl := Except.ok.inj inner
    refine ⟨past, ?_⟩
    by_cases same : before = 10
    · have some : 1 ≤ n := by rwa [if_neg (not_not.mpr same)] at room
      exact some.eq_or_lt.symm.imp_right fun one => ⟨one.symm, same⟩
    · rw [if_pos same] at room
      exact .inl room
  · rintro ⟨past, room⟩
    refine ⟨_, file, 0, [], by rw [fileRead, inodeRead_end past]; rfl, ?_, ?_, List.nil_prefix, rfl, rfl⟩
    · by_cases same : before = 10
      · rw [if_neg (not_not.mpr same)]
        simp only [List.length_singleton]
        omega
      · rw [if_pos same]
        exact room.resolve_right fun one => same one.2
    · rw [dataRead, readLoop_end (.inl past)]

theorem inodeWrite_offset {dev'' : Device} {file' : File} {buf : List Byte} {ret : Nat}
    (done : inodeWrite dev file buf = .ok (dev'', file', ret)) : file'.offset = file.offset := by
  unfold inodeWrite at done
  simp only at done
  split at done
  · cases done
  split at done
  · split at done
    · cases done
    obtain ⟨⟨dev₁, inode₁⟩, -, done⟩ := bind_ok done
    simp only at done
    split at done
    · rw [← (Prod.mk.inj (Prod.mk.inj (Except.ok.inj done)).2).1]
    · rw [← (Prod.mk.inj (Prod.mk.inj (Except.ok.inj done)).2).1]
  · rw [← (Prod.mk.inj (Prod.mk.inj (Except.ok.inj done)).2).1]

theorem writeAnswers_iff {buf : List Byte} (regular : file.inode.fsInode.type = NF) :
    WriteAnswers dev file buf ↔ buf = [] := by
  constructor
  · rintro ⟨dev', file', done, moved⟩
    have kept := inodeWrite_offset done
    exact List.eq_nil_of_length_eq_zero (by omega)
  · rintro rfl
    have folder : file.inode.fsInode.type ≠ DR := by
      rw [regular]
      decide
    have nothing : ¬(2 ^ 31 ≤ file.offset % 2 ^ 32 ∧ ([] : List Byte) ≠ []) := fun below => below.2 rfl
    simp only [WriteAnswers, inodeWrite, if_neg folder, if_pos regular, if_neg nothing, writeLoop_done,
      bind, Except.bind]
    split <;> exact ⟨_, _, rfl, rfl⟩

def File.Regular (file : File) : Prop := file.inode.type = NF ∧ file.inode.fsInode.type = NF

instance (file : File) : Decidable file.Regular := inferInstanceAs (Decidable (_ ∧ _))

/-- A read answers only at the end of the file, where there is nothing to answer for, and a write only when it is of
nothing. -/
theorem answers_iff (dev : Device) (file : File) (n : Nat) (before : Byte) (buf : List Byte) (regular : file.Regular) :
    (ReadAnswers dev file n before ↔ file.inode.fsInode.size ≤ file.offset % 2 ^ 32 ∧ (2 ≤ n ∨ n = 1 ∧ before = 10)) ∧
      (WriteAnswers dev file buf ↔ buf = []) :=
  ⟨readAnswers_iff, writeAnswers_iff regular.2⟩

def shortFile : File := ⟨updateInode ⟨1, NF, 7, 3, 1, 1, 0, 1, Vector.replicate linkSlots 0⟩, 0⟩

theorem answers_iff_sample : shortFile.Regular ∧
    (ReadAnswers (fun _ => 7) shortFile 8 0 ↔
      shortFile.inode.fsInode.size ≤ shortFile.offset % 2 ^ 32 ∧ (2 ≤ 8 ∨ 8 = 1 ∧ (0 : Byte) = 10)) ∧
      (WriteAnswers (fun _ => 7) shortFile [1] ↔ ([1] : List Byte) = []) :=
  ⟨by decide, answers_iff _ shortFile 8 0 [1] (by decide)⟩

/-- A read of the three bytes returns 0, and a write of one byte leaves the offset. -/
theorem answers_counterexample : shortFile.Regular ∧ ¬ReadAnswers (fun _ => 7) shortFile 8 0 ∧
    ¬WriteAnswers (fun _ => 7) shortFile [1] := by
  refine ⟨by decide, fun right => ?_, fun right => ?_⟩
  · exact absurd (readAnswers_iff.mp right).1 (by decide)
  · exact absurd ((writeAnswers_iff (by decide)).mp right) (by decide)

/-! ### Seeking -/

/-- `base + distance`, kept between the two ends of the file. -/
def seekTarget (file : File) (distance : Int) : Whence → Option Int
  | .set => some (max (min distance file.inode.size) 0)
  | .cur => some (max (min (file.offset + distance) file.inode.size) 0)
  | .tail => some (max (min (file.inode.size + distance) file.inode.size) 0)
  | .other => none

/-- The target is left in the offset and returned; without a target the offset stays and -1 is returned. -/
def SeekAnswers (file : File) (distance : Int) (whence : Whence) : Prop :=
  inodeLseek file distance whence = match seekTarget file distance whence with
    | some target => ({ file with offset := target.toNat }, target)
    | none => (file, -1)

/-- A step back from the offset stays in the file, and neither the size nor the target of `S_END` leaves the `int`s. -/
def SeekFits (file : File) (distance : Int) : Whence → Prop
  | .set => file.inode.size < 2 ^ 31 ∨ distance ≤ 0
  | .cur => 0 ≤ file.offset + distance ∧ (file.inode.size < 2 ^ 31 ∨ file.offset + distance < 2 ^ 31) ∨
      file.inode.size = 0
  | .tail => file.inode.size < 2 ^ 31 ∧ file.inode.size + distance < 2 ^ 31 ∨ file.inode.size + distance ≤ 0
  | .other => False

theorem seekAnswers_iff {distance target : Int} {whence : Whence} (goal : seekTarget file distance whence = some target)
    (lo : 0 ≤ target) (hi : target < 2 ^ 32) :
    SeekAnswers file distance whence ↔ (inodeLseek file distance whence).2 = target := by
  rw [SeekAnswers, goal]
  refine ⟨congrArg Prod.snd, fun same => ?_⟩
  have moved : inodeLseek file distance whence = ({ file with
      offset := ((inodeLseek file distance whence).2 % 2 ^ 64).toNat }, (inodeLseek file distance whence).2) := rfl
  rw [moved, same, Int.emod_eq_of_lt lo (by omega)]

theorem bmod_spec (z : Int) : ∃ q, z.bmod (2 ^ 32) = z - 2 ^ 32 * q ∧ -2 ^ 31 ≤ z.bmod (2 ^ 32) ∧
    z.bmod (2 ^ 32) < 2 ^ 31 :=
  ⟨z.bdiv (2 ^ 32), Int.bmod_eq_self_sub_mul_bdiv z _, Int.le_bmod (by decide), Int.bmod_lt (by decide)⟩

theorem lseek_iff (file : File) (distance : Int) (whence : Whence) (size : file.inode.size < 2 ^ 32)
    (inside : file.offset ≤ file.inode.size) (lo : -2 ^ 31 ≤ distance) (hi : distance < 2 ^ 31) :
    SeekAnswers file distance whence ↔ SeekFits file distance whence := by
  obtain ⟨q, int, least, most⟩ : ∃ q, asInt file.inode.size = file.inode.size - 2 ^ 32 * q ∧
    -2 ^ 31 ≤ asInt file.inode.size ∧ asInt file.inode.size < 2 ^ 31 := bmod_spec file.inode.size
  cases whence with
  | set =>
    apply (seekAnswers_iff rfl (by omega) (by omega)).trans
    simp only [inodeLseek, SeekFits]
    omega
  | cur =>
    apply (seekAnswers_iff rfl (by omega) (by omega)).trans
    simp only [inodeLseek, SeekFits]
    generalize sum : (file.offset + distance) % 2 ^ 64 = u
    generalize top : asInt file.inode.size % 2 ^ 64 = w
    obtain ⟨q', cut, least', most'⟩ := bmod_spec (max (min u w) 0)
    generalize (max (min u w) 0).bmod (2 ^ 32) = t at *
    omega
  | tail =>
    apply (seekAnswers_iff rfl (by omega) (by omega)).trans
    simp only [inodeLseek, SeekFits]
    generalize asInt file.inode.size = z at *
    obtain ⟨q', cut, least', most'⟩ := bmod_spec (z + distance)
    generalize (z + distance).bmod (2 ^ 32) = t at *
    omega
  | other =>
    -- The offset becomes -1, which no file reaches.
    refine iff_of_false (fun same => ?_) id
    have moved := congrArg (fun r => r.1.offset) same
    simp only [inodeLseek, seekTarget] at moved
    omega

theorem lseek_iff_sample : SeekAnswers shortFile 2 .cur ↔ SeekFits shortFile 2 .cur :=
  lseek_iff shortFile 2 .cur (by decide) (by decide) (by decide) (by decide)

/-- A step back from the start of the three bytes goes to their end, a far step from the end to the start, and a
`whence` that is not known moves the offset. -/
theorem lseek_counterexample : shortFile.offset ≤ shortFile.inode.size ∧ ¬SeekAnswers shortFile (-1) .cur ∧
    ¬SeekAnswers shortFile (2 ^ 31 - 1) .tail ∧ ¬SeekAnswers shortFile 0 .other := by
  refine ⟨by decide, fun right => ?_, fun right => ?_, fun right => ?_⟩
  · exact absurd (congrArg Prod.snd right) (by decide +kernel)
  · exact absurd (congrArg Prod.snd right) (by decide +kernel)
  · exact absurd (congrArg (fun r => r.1.offset) right) (by decide +kernel)

end OsLabs.Ext2

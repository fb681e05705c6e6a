import OsLabs.Ext2.Write

/-!
# What a read returns

A read inside a file whose blocks cover its size returns the bytes of the file,
whatever the alignment. The first byte is right even when the blocks do not cover
the size.
-/

namespace OsLabs.Ext2

def Inode.address (inode : Inode) (p : Nat) : Nat := data (inode.slot (p / blockBytes)) + p % blockBytes

def byteAt (dev : Device) (inode : Inode) (p : Nat) : Byte := dev (inode.address p)

variable {dev dev' : Device} {inode : Inode} {n offset fuel : Nat} {first : Bool} {bytes : List Byte}

theorem last_block (pos : 0 < inode.len) (hlen : inode.len ≤ linkSlots) :
    (inode.len + (2 ^ 32 - 1)) % 2 ^ 32 = inode.len - 1 := by
  simp only [linkSlots] at hlen
  omega

theorem bmod_small {z : Int} (lo : 0 ≤ z) (hi : z < 2 ^ 31) : z.bmod (2 ^ 32) = z := by
  rw [Int.bmod_def, Int.emod_eq_of_lt lo (by omega), if_pos (by omega)]

theorem readLeft_inner (hlen : inode.len ≤ linkSlots) (inner : offset / blockBytes < inode.len - 1)
    (aligned : first = false → offset % blockBytes = 0) :
    readLeft inode (offset / blockBytes) offset first = ((blockBytes - offset % blockBytes : Nat) : Int) := by
  have some : 0 < inode.len := Nat.zero_lt_of_lt (Nat.lt_of_lt_of_le inner (Nat.sub_le ..))
  rw [readLeft, last_block some hlen, if_pos inner]
  cases first with
  | true =>
    rw [if_pos rfl]
    have := Nat.mod_lt offset (show 0 < blockBytes by decide)
    omega
  | false => rw [if_neg (by decide), aligned rfl, Nat.sub_zero]

/-- In the last block the first chunk is what is left of the file. -/
theorem readLeft_last (hlen : inode.len ≤ linkSlots) (covered : inode.size ≤ inode.len * blockBytes)
    (inside : offset < inode.size)
    (last : inode.len - 1 ≤ offset / blockBytes) :
    readLeft inode (offset / blockBytes) offset true = ((inode.size - offset : Nat) : Int) := by
  have some : 0 < inode.len := by
    simp only [blockBytes] at covered
    omega
  rw [readLeft, last_block some hlen, if_neg (by omega), if_pos rfl]
  simp only [linkSlots, blockBytes] at *
  rw [bmod_small (by omega) (by omega)]
  omega

/-- A later chunk in the last block is computed without the size of a block. -/
theorem readLeft_later {cnt : Nat} (hlen : inode.len ≤ linkSlots) (covered : inode.size ≤ inode.len * blockBytes)
    (reached : inode.len - 1 ≤ inode.size) (last : inode.len - 1 ≤ cnt) (some : 0 < inode.len) :
    readLeft inode cnt offset false = ((inode.size - (inode.len - 1) : Nat) : Int) := by
  rw [readLeft, last_block some hlen, if_neg (by omega), if_neg (by decide)]
  simp only [linkSlots, blockBytes] at *
  rw [bmod_small (by omega) (by omega)]
  omega

/-- Each round takes what is left of the block, or of the request. -/
theorem readLeft_eq (hlen : inode.len ≤ linkSlots) (covered : inode.size ≤ inode.len * blockBytes)
    (pos : 0 < n) (inside : offset + n ≤ inode.size) (aligned : first = false → offset % blockBytes = 0) :
    min (readLeft inode (offset / blockBytes) offset first) n =
    ((min (blockBytes - offset % blockBytes) n : Nat) : Int) := by
  by_cases inner : offset / blockBytes < inode.len - 1
  · rw [readLeft_inner hlen inner aligned]
    omega
  · simp only [blockBytes] at *
    cases first with
    | true =>
      have left := readLeft_last hlen covered (show offset < inode.size by omega) (Nat.not_lt.mp inner)
      simp only [blockBytes] at left
      rw [left]
      omega
    | false =>
      have left := @readLeft_later inode offset (offset / 1024) hlen covered (by omega) (Nat.not_lt.mp inner) (by omega)
      have := aligned rfl
      rw [left]
      omega

theorem read_block {k : Nat} (room : offset % blockBytes + k ≤ blockBytes) :
    dev.read (data (inode.slot (offset / blockBytes)) + offset % blockBytes) k =
      (List.range k).map fun i => byteAt dev inode (offset + i) := by
  apply List.map_congr_left
  intro i hi
  have small := List.mem_range.mp hi
  have same : (offset + i) / blockBytes = offset / blockBytes ∧
      (offset + i) % blockBytes = offset % blockBytes + i := by
    simp only [blockBytes] at *
    omega
  rw [byteAt, Inode.address, same.1, same.2, Nat.add_assoc]

theorem readLoop_round {k cnt : Nat} (inside : offset < inode.size) (some : n ≠ 0)
    (left : min (readLeft inode cnt offset first) n = (k : Int)) (hq : offset / blockBytes < linkSlots) :
    readLoop dev inode (fuel + 1) cnt n offset first =
      (readLoop dev inode fuel (cnt + 1) (n - k) (offset + k) false).map
        (dev.read (data (inode.slot (offset / blockBytes)) + offset % blockBytes) k ++ ·) := by
  rw [readLoop, if_pos ⟨inside, some⟩]
  simp only [left, if_neg (Int.not_lt.mpr (Int.natCast_nonneg k)), Int.toNat_natCast]
  rw [Inode.linkAt_eq hq]
  simp only [bind, Except.bind]
  cases readLoop dev inode fuel (cnt + 1) (n - k) (offset + k) false <;> rfl

theorem readLoop_inside (hlen : inode.len ≤ linkSlots) (covered : inode.size ≤ inode.len * blockBytes)
    (inside : n ≠ 0 → offset + n ≤ inode.size) (aligned : n ≠ 0 → first = false → offset % blockBytes = 0)
    (enough : n < fuel) :
    readLoop dev inode fuel (offset / blockBytes) n offset first =
      .ok ((List.range n).map fun i => byteAt dev inode (offset + i)) := by
  induction fuel generalizing n offset first with
  | zero => omega
  | succ fuel ih =>
    by_cases done : n = 0
    · subst done
      simp [readLoop]
    · have inside := inside done
      have left := readLeft_eq hlen covered (by omega) inside (aligned done)
      obtain ⟨k, hk⟩ : ∃ k, k = min (blockBytes - offset % blockBytes) n := ⟨_, rfl⟩
      rw [← hk] at left
      have hk : 0 < k ∧ k ≤ n ∧ offset % blockBytes + k ≤ blockBytes ∧ (k = n ∨ (offset + k) % blockBytes = 0 ∧
          (offset + k) / blockBytes = offset / blockBytes + 1) := by
        have := Nat.mod_lt offset (show 0 < blockBytes by decide)
        simp only [blockBytes] at *
        omega
      obtain ⟨pos, le, room, next⟩ := hk
      have hq : offset / blockBytes < linkSlots := by
        have := Nat.mul_le_mul_right blockBytes hlen
        simp only [blockBytes, linkSlots] at *
        omega
      have rest : readLoop dev inode fuel (offset / blockBytes + 1) (n - k) (offset + k) false =
          .ok ((List.range (n - k)).map fun i => byteAt dev inode (offset + k + i)) := by
        rcases next with all | ⟨aligned', next⟩
        · rw [all, Nat.sub_self]
          cases fuel with
          | zero => omega
          | succ fuel => simp [readLoop]
        · rw [← next]
          exact ih (fun _ => by omega) (fun _ _ => aligned') (by omega)
      rw [readLoop_round (by omega) done left hq, rest, read_block room, Except.map]
      have split : List.range n = List.range k ++ (List.range (n - k)).map (k + ·) := by
        rw [← List.range_add, Nat.add_sub_cancel' le]
      simp only [split, List.map_append, List.map_map, Function.comp_def, Nat.add_assoc]

theorem dataRead_inside (hlen : inode.len ≤ linkSlots) (covered : inode.size ≤ inode.len * blockBytes)
    (inside : offset + n ≤ inode.size) :
    dataRead dev inode n offset = .ok ((List.range n).map fun i => byteAt dev inode (offset + i)) :=
  readLoop_inside hlen covered (fun _ => inside) (fun _ h => Bool.noConfusion h) (by omega)

theorem dataRead_first (hlen : inode.len ≤ linkSlots) (hq : offset / blockBytes < inode.len)
    (small : inode.size ≤ linkSlots * blockBytes) (pos : 0 < n) (inside : offset < inode.size)
    (read : dataRead dev inode n offset = .ok bytes) : bytes[0]? = some (byteAt dev inode offset) := by
  have last := last_block (Nat.zero_lt_of_lt hq) hlen
  have slot : offset / blockBytes < linkSlots := by omega
  have left : 0 < min (readLeft inode (offset / blockBytes) offset true) n := by
    rw [readLeft, last]
    clear last read
    simp only [linkSlots, blockBytes, if_true] at *
    by_cases before : offset / 1024 < inode.len - 1
    · rw [if_pos before]
      omega
    · rw [if_neg before, bmod_small (by omega) (by omega)]
      omega
  obtain ⟨k, hk⟩ : ∃ k : Nat, min (readLeft inode (offset / blockBytes) offset true) n = ((k + 1 : Nat) : Int) :=
    Int.eq_succ_of_zero_lt left
  rw [dataRead, readLoop_round inside (by omega) hk slot] at read
  cases rest : readLoop dev inode (n + 1) (offset / blockBytes + 1) (n - (k + 1)) (offset + (k + 1)) false with
  | error e =>
    rw [rest] at read
    cases read
  | ok tail =>
    rw [rest] at read
    obtain rfl := Except.ok.inj read
    rw [List.getElem?_append_left (by simp), Mem.read, List.range_succ_eq_map, List.map_cons, List.getElem?_cons_zero]
    rfl

theorem dataRead_congr (hlen : inode.len ≤ linkSlots) (covered : inode.size ≤ inode.len * blockBytes)
    (inside : offset + n ≤ inode.size)
    (same : ∀ b ∈ inode.links, ∀ r < blockBytes, dev' (data b + r) = dev (data b + r)) :
    dataRead dev' inode n offset = dataRead dev inode n offset := by
  rw [dataRead_inside hlen covered inside, dataRead_inside hlen covered inside]
  congr 1
  apply List.map_congr_left
  intro i hi
  have := List.mem_range.mp hi
  refine same _ (Inode.slot_mem hlen ?_) _ (Nat.mod_lt _ (by decide))
  simp only [blockBytes] at *
  omega

/-! ### Requests past the end -/

/-- The read ends, stores the bytes of the file from the offset on, as many as there are and are asked for, and
returns their number. -/
def ReadsRight (dev : Device) (inode : Inode) (count offset : Nat) : Prop :=
  dataRead dev inode count offset =
    .ok ((List.range (min count (inode.size - offset))).map fun i => byteAt dev inode (offset + i))

theorem readLoop_end {cnt : Nat} (stop : inode.size ≤ offset ∨ n = 0) :
    readLoop dev inode (fuel + 1) cnt n offset first = .ok [] := by
  rw [readLoop, if_neg (by omega)]

theorem clip (k n : Nat) : min (k : Int) n = ((min k n : Nat) : Int) := by omega

theorem readsRight_last (hlen : inode.len ≤ linkSlots) (filled : inode.len = blocks inode.size)
    (inside : offset < inode.size)
    (past : inode.size < offset + n) (last : inode.len - 1 ≤ offset / blockBytes) : ReadsRight dev inode n offset := by
  have room : offset % blockBytes + (inode.size - offset) ≤ blockBytes := by
    simp only [blocks, blockBytes] at filled last ⊢
    omega
  have hq : offset / blockBytes < linkSlots := by
    simp only [blocks, linkSlots, blockBytes] at filled hlen ⊢
    omega
  have some : n ≠ 0 := by omega
  have stop : inode.size ≤ offset + (inode.size - offset) := by omega
  have all : min n (inode.size - offset) = inode.size - offset := Nat.min_eq_right (by omega)
  have left :=
    (congrArg (fun x => min x (n : Int)) (readLeft_last hlen (covered_of_filled filled) inside last)).trans (clip _ n)
  rw [Nat.min_comm, all] at left
  rw [ReadsRight, dataRead, readLoop_round inside some left hq, readLoop_end (.inl stop), read_block room, all]
  simp only [Except.map, List.append_nil]

theorem readLoop_bytes {k cnt : Nat} (inside : offset < inode.size) (some : n ≠ 0)
    (left : readLeft inode cnt offset first = (k : Int)) (hq : offset / blockBytes < linkSlots)
    (done : readLoop dev inode (fuel + 1) cnt n offset first = .ok bytes) :
    ∃ rest, readLoop dev inode fuel (cnt + 1) (n - min k n) (offset + min k n) false = .ok rest ∧
      bytes.length = min k n + rest.length := by
  have clipped : min (readLeft inode cnt offset first) n = ((min k n : Nat) : Int) := by
    rw [left, clip]
  rw [readLoop_round inside some clipped hq] at done
  cases later : readLoop dev inode fuel (cnt + 1) (n - min k n) (offset + min k n) false with
  | error e =>
    rw [later] at done
    cases done
  | ok rest =>
    rw [later] at done
    obtain rfl := Except.ok.inj done
    exact ⟨rest, rfl, by simp⟩

/-- A later chunk in the last block goes past the end of the file. -/
theorem readLoop_long (hlen : inode.len ≤ linkSlots) (filled : inode.len = blocks inode.size)
    (past : inode.size < offset + n) (inner : offset / blockBytes < inode.len - 1)
    (aligned : first = false → offset % blockBytes = 0)
    (done : readLoop dev inode fuel (offset / blockBytes) n offset first = .ok bytes) :
    inode.size < offset + bytes.length := by
  induction fuel generalizing n offset first bytes with
  | zero => cases done
  | succ fuel ih =>
    have inside : offset < inode.size := by
      simp only [blocks, blockBytes] at filled inner
      omega
    have hq : offset / blockBytes < linkSlots := by omega
    obtain ⟨rest, later, length⟩ := readLoop_bytes inside (by omega) (readLeft_inner hlen inner aligned) hq done
    have whole : min (blockBytes - offset % blockBytes) n = blockBytes - offset % blockBytes := by
      simp only [blocks, blockBytes] at *
      omega
    have next : (offset + (blockBytes - offset % blockBytes)) / blockBytes = offset / blockBytes + 1 ∧
        (offset + (blockBytes - offset % blockBytes)) % blockBytes = 0 := by
      simp only [blockBytes]
      omega
    rw [whole, ← next.1] at later
    rw [whole] at length
    have pos : 0 < blockBytes - offset % blockBytes ∧ blockBytes - offset % blockBytes ≤ n := by
      simp only [blockBytes] at *
      omega
    by_cases more : offset / blockBytes + 1 < inode.len - 1
    · have := ih (by omega) (by rw [next.1]; exact more) (fun _ => next.2) later
      omega
    · have last : inode.len - 1 ≤ (offset + (blockBytes - offset % blockBytes)) / blockBytes := by omega
      have here : offset + (blockBytes - offset % blockBytes) < inode.size ∧
          (offset + (blockBytes - offset % blockBytes)) / blockBytes < linkSlots := by
        simp only [blocks, linkSlots, blockBytes] at *
        omega
      have left : n - (blockBytes - offset % blockBytes) ≠ 0 := by omega
      have some : 0 < inode.len := Nat.zero_lt_of_lt (Nat.lt_of_lt_of_le inner (Nat.sub_le ..))
      have reached : inode.len - 1 ≤ inode.size := by
        simp only [blocks, blockBytes] at *
        omega
      cases fuel with
      | zero => cases later
      | succ fuel =>
        obtain ⟨tail, -, length'⟩ :=
          readLoop_bytes here.1 left (readLeft_later hlen (covered_of_filled filled) reached last some) here.2 later
        simp only [blocks, blockBytes] at *
        omega

theorem not_readsRight (hlen : inode.len ≤ linkSlots) (filled : inode.len = blocks inode.size)
    (past : inode.size < offset + n) (inner : offset / blockBytes < inode.len - 1) :
    ¬ReadsRight dev inode n offset := by
  intro right
  have long := readLoop_long hlen filled past inner (fun h => Bool.noConfusion h) right
  rw [List.length_map, List.length_range] at long
  simp only [blocks, blockBytes] at filled inner
  omega

/-- A read is right unless it starts before the last block and asks for bytes past the end. -/
theorem readsRight_iff (dev : Device) (inode : Inode) (n offset : Nat) (hlen : inode.len ≤ linkSlots)
    (filled : inode.len = blocks inode.size) :
    ReadsRight dev inode n offset ↔
      offset + n ≤ inode.size ∨ inode.size ≤ offset ∨ inode.len - 1 ≤ offset / blockBytes := by
  constructor
  · intro right
    by_contra wrong
    exact not_readsRight hlen filled (by omega) (by omega) right
  · intro fits
    by_cases inside : offset + n ≤ inode.size
    · have all : min n (inode.size - offset) = n := Nat.min_eq_left (by omega)
      rw [ReadsRight, all]
      refine dataRead_inside hlen ?_ inside
      simp only [blocks, blockBytes] at *
      omega
    · by_cases after : inode.size ≤ offset
      · have none : min n (inode.size - offset) = 0 := by omega
        rw [ReadsRight, dataRead, readLoop_end (.inl after), none]
        rfl
      · exact readsRight_last hlen filled (by omega) (by omega) (by omega)

def longFile : Inode := ⟨1, NF, 7, 1025, 2, 1, 0, 1, Vector.ofFn fun j => j⟩

theorem readsRight_iff_sample :
    ReadsRight (fun _ => 7) longFile 2 1024 ↔ 1024 + 2 ≤ longFile.size ∨ longFile.size ≤ 1024 ∨
      longFile.len - 1 ≤ 1024 / blockBytes :=
  readsRight_iff _ longFile 2 1024 (by decide) (by decide)

/-- A request for all of the file and one byte more stores that byte as well. -/
theorem readsRight_counterexample :
    ¬∀ dev inode n offset, inode.len ≤ linkSlots → inode.len = blocks inode.size → ReadsRight dev inode n offset := by
  intro all
  exact not_readsRight (by decide) (by decide) (by decide) (by decide)
    (all (fun _ => 0) longFile 1026 0 (by decide) (by decide))

end OsLabs.Ext2

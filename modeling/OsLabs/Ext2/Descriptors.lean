import Mathlib.Logic.Function.Basic
import OsLabs.Data.Machine
import OsLabs.Ext2.Api
import OsLabs.Ext2.Frame

/-!
# Descriptors of one file

Any number of descriptors are open on one regular file, each with its own copy of
the inode. As long as every write stays inside the file and inside one block, all
of them see one file. A write that grows the file is seen by no other descriptor.
-/

namespace OsLabs.Ext2
open Util Function

/-- The descriptors, what the file holds once every write is applied in its order, and the blocks that completed
writes have left linked. -/
structure Session (Fd : Type) where
  dev : Device
  file : Fd → File
  content : List Byte
  linked : List Nat

inductive Call (Fd : Type) where
  | write (d : Fd) (buf : List Byte)
  | lseek (d : Fd) (offset : Int) (whence : Whence)
  | read (d : Fd) (size : Nat) (stored : List Byte)

/-- Calls that return; a write that `P` allows. -/
inductive CallStep {Fd : Type} [DecidableEq Fd] (P : Session Fd → Fd → List Byte → Prop) :
    Session Fd → Call Fd → Session Fd → Prop
  | write {s : Session Fd} {d : Fd} {buf : List Byte} {dev : Device} {file : File} {n : Nat} (allowed : P s d buf)
      (done : inodeWrite s.dev (s.file d) buf = .ok (dev, file, n)) :
      CallStep P s (.write d buf) {
        dev := dev
        file := update s.file d file
        content := pwrite s.content (s.file d).offset buf
        linked := s.linked ++ file.inode.fsInode.links }
  | lseek {s : Session Fd} {d : Fd} (offset : Int) (whence : Whence) :
      CallStep P s (.lseek d offset whence) { s with
        file := update s.file d (inodeLseek (s.file d) offset whence).1 }
  | read {s : Session Fd} {d : Fd} {size : Nat} {before : Byte} {stored : List Byte}
      (done : inodeRead s.dev (s.file d) size before = .ok stored) : CallStep P s (.read d size stored) s

/-- A regular file in use, of a file system whose directories are lists of records and have no block of the file. -/
structure Sound (dev : Device) (i : Nat) : Prop where
  tree : WellFormed dev
  normal : (readInode dev i).type = NF
  marked : i < mapBits ∧ readMap dev imap i = true
  len : (readInode dev i).len ≤ linkSlots
  covered : (readInode dev i).size ≤ (readInode dev i).len * blockBytes
  distinct : (readInode dev i).links.Nodup
  apart : ∀ k < mapBits, readMap dev imap k = true → (readInode dev k).type = DR →
    ∀ b ∈ (readInode dev k).links, b ∉ (readInode dev i).links

/-- The components lead from inode `k`, through directories in use, to inode `i`. -/
def Leads (dev : Device) (i : Nat) : Nat → List (List Byte) → Prop
  | k, [] => k = i
  | k, c :: cs => k < mapBits ∧ readMap dev imap k = true ∧ (readInode dev k).type = DR ∧ Component c ∧
      ∃ j : Nat, dirLookup dev (readInode dev k) c = .ok (j : Int) ∧ Leads dev i j cs

/-- All descriptors are opened on inode `i` of the device `start`. -/
def descriptors {Fd : Type} [DecidableEq Fd] (P : Session Fd → Fd → List Byte → Prop) (start : Device) (i : Nat) :
    Machine (Session Fd) (Call Fd) where
  Init s := Sound start i ∧ s.dev = start ∧ s.content = contents start (readInode start i) ∧
    s.linked = (readInode start i).links ∧
    ∀ d, (s.file d).inode = updateInode (readInode start i) ∧ Placed (readInode start i).size (s.file d).offset
  Step := CallStep P

/-- The write overwrites bytes of one block of the file, and none of an inode in use. -/
structure Overwrites {Fd : Type} (s : Session Fd) (d : Fd) (buf : List Byte) : Prop where
  inside : (s.file d).offset + buf.length ≤ (s.file d).inode.fsInode.size
  chunk : (s.file d).offset % blockBytes + buf.length ≤ blockBytes
  apart : ∀ k < mapBits, readMap s.dev imap k = true → ∀ x,
    Mem.Covers ((s.file d).inode.fsInode.address (s.file d).offset, buf) x → x < table k ∨ table k + inodeBytes ≤ x

variable {dev dev' : Device} {inode : Inode} {file : File} {buf : List Byte} {i k : Nat} {cs : List (List Byte)}

/-! ### A write inside one block -/

theorem overwrite_eq (normal : file.inode.fsInode.type = NF) (hlen : file.inode.fsInode.len ≤ linkSlots)
    (covered : file.inode.fsInode.size ≤ file.inode.fsInode.len * blockBytes)
    (inside : file.offset + buf.length ≤ file.inode.fsInode.size)
    (chunk : file.offset % blockBytes + buf.length ≤ blockBytes) :
    inodeWrite dev file buf = .ok (dev.write (file.inode.fsInode.address file.offset) buf, file, buf.length) := by
  have loop : writeLoop file.inode.fsInode.len file.offset buf.length dev file.inode.fsInode true buf =
      .ok (dev.write (file.inode.fsInode.address file.offset) buf, file.inode.fsInode) := by
    by_cases none : buf = []
    · subst none
      rw [Mem.write_nil, List.length_nil]
      exact writeLoop_done
    · have pos := List.length_pos_of_ne_nil none
      have existing : file.offset < file.inode.fsInode.len * blockBytes := by omega
      have low := Nat.le_trans covered (Nat.mul_le_mul_right blockBytes hlen)
      rw [loop_eq hlen (by omega) (.inl existing), newBlocks, if_pos existing, chunkWrites, if_pos existing,
        chunks_single none (by omega)]
      rfl
  have low := Nat.le_trans covered (Nat.mul_le_mul_right blockBytes hlen)
  simp only [linkSlots, blockBytes] at low
  have int : file.offset % 2 ^ 32 = file.offset := Nat.mod_eq_of_lt (by omega)
  rw [inodeWrite]
  simp only [int, normal, NF, DR, bind, Except.bind, if_true, loop, if_neg (Nat.not_lt.mpr inside)]
  rw [if_neg (by decide), if_neg fun below => absurd below.1 (by omega)]

/-! ### What a write leaves alone -/

/-- What changes between two devices is in the blocks of inode `i`, and in no inode in use. -/
structure Confined (dev dev' : Device) (i : Nat) : Prop where
  maps : SameMaps dev dev'
  slots : ∀ k < mapBits, readMap dev imap k = true → readInode dev' k = readInode dev k
  blocks : ∀ b ∉ (readInode dev i).links, ∀ r < blockBytes, dev' (data b + r) = dev (data b + r)

namespace Confined

theorem marked (h : Confined dev dev' i) (small : k < mapBits) : readMap dev' imap k = readMap dev imap k :=
  h.maps.readMap (by decide) small

theorem isDir (h : Confined dev dev' i) (sound : Sound dev i) (small : k < mapBits) (used : readMap dev imap k = true)
    (directory : (readInode dev k).type = DR) {records : List Record} (dir : IsDir dev (readInode dev k) records) :
    IsDir dev' (readInode dev' k) records := by
  have same := h.slots k small used
  refine ⟨by rw [same]; exact dir.len, by rw [same]; exact dir.covered, ?_, dir.valid⟩
  rw [same, contents_congr dir.len dir.covered, dir.content]
  intro b mem
  exact h.blocks b (sound.apart k small used directory b mem)

theorem sound (h : Confined dev dev' i) (sound : Sound dev i) : Sound dev' i := by
  obtain ⟨⟨root, dirs⟩, normal, ⟨small, used⟩, len, covered, distinct, apart⟩ := sound
  have same := h.slots i small used
  refine ⟨⟨⟨?_, ?_⟩, ?_⟩, by rw [same]; exact normal, ⟨small, (h.marked small).trans used⟩, by rw [same]; exact len,
    by rw [same]; exact covered, by rw [same]; exact distinct, ?_⟩
  · exact (h.marked (by decide)).trans root.1
  · rw [h.slots 0 (by decide) root.1]
    exact root.2
  · intro k small' used' directory
    rw [h.marked small'] at used'
    rw [h.slots k small' used'] at directory
    obtain ⟨records, dir, named⟩ := dirs k small' used' directory
    refine ⟨records, h.isDir ⟨⟨root, dirs⟩, normal, ⟨small, used⟩, len, covered, distinct, apart⟩ small'
      used' directory dir,
      fun r mem live => ?_⟩
    obtain ⟨low, marked⟩ := named r mem live
    exact ⟨low, (h.marked low).trans marked⟩
  · intro k small' used' directory
    rw [h.marked small'] at used'
    rw [h.slots k small' used'] at directory ⊢
    rw [same]
    exact apart k small' used' directory

theorem leads (h : Confined dev dev' i) (sound : Sound dev i) (path : Leads dev i k cs) : Leads dev' i k cs := by
  induction cs generalizing k with
  | nil => exact path
  | cons c cs ih =>
    obtain ⟨small, used, directory, component, j, found, rest⟩ := path
    obtain ⟨records, dir, -⟩ := sound.tree.dirs k small used directory
    refine ⟨small, (h.marked small).trans used,
      by rw [h.slots k small used]; exact directory, component, j, ?_, ih rest⟩
    rw [(h.isDir sound small used directory dir).dirLookup component.2.2, ← dir.dirLookup component.2.2]
    exact found

end Confined

/-- A lookup of the path gives the inode as it is in the table. -/
theorem Leads.walk (path : Leads dev i k cs) : walk dev (readInode dev k) cs = .ok (some (readInode dev i)) := by
  induction cs generalizing k with
  | nil =>
    obtain rfl := path
    rfl
  | cons c cs ih =>
    obtain ⟨-, -, -, -, j, found, rest⟩ := path
    simp only [Ext2.walk, found, bind, Except.bind]
    rw [if_pos (Int.natCast_nonneg j), Int.toNat_natCast]
    exact ih rest

theorem openFile_leads (path : Leads dev i 0 (ends cs)) (nonempty : cs ≠ []) (all : ∀ c ∈ cs, Component c)
    (trailing : Bool) : openFile dev (join cs ++ if trailing then [slash] else []) =
      .ok (some ⟨updateInode (readInode dev i), 0⟩) := by
  simp only [openFile, lookup, inodeLookup_join nonempty all trailing, path.walk, bind, Except.bind]

theorem confined_write {offset : Nat} (len : (readInode dev i).len ≤ linkSlots)
    (covered : (readInode dev i).size ≤ (readInode dev i).len * blockBytes)
    (inside : offset + buf.length ≤ (readInode dev i).size) (chunk : offset % blockBytes + buf.length ≤ blockBytes)
    (apart : ∀ k < mapBits, readMap dev imap k = true → ∀ x,
      Mem.Covers ((readInode dev i).address offset, buf) x → x < table k ∨ table k + inodeBytes ≤ x) :
    Confined dev (dev.write ((readInode dev i).address offset) buf) i := by
  refine ⟨SameMaps.of_write (data_addr _ _), fun k small used => ?_, fun b out r low => ?_⟩
  · apply readInode_congr
    intro x lo hi
    apply Mem.write_outside
    by_contra hits
    have := apart k small used x ⟨by omega, by show x < _ + buf.length; omega⟩
    omega
  · apply Mem.write_outside
    by_contra hits
    have pos : 0 < blockBytes := by decide
    obtain ⟨j, same⟩ := Nat.exists_eq_add_of_le (show (readInode dev i).address offset ≤ data b + r by omega)
    have small : offset % blockBytes + j < blockBytes := by omega
    rw [Inode.address, Nat.add_assoc] at same
    obtain ⟨here, -⟩ := data_inj low small same
    refine out (here ▸ Inode.slot_mem len ?_)
    simp only [blockBytes] at *
    omega

/-! ### Runs -/

section

variable {Fd : Type} [DecidableEq Fd] {P : Session Fd → Fd → List Byte → Prop} {s t : Session Fd} {d : Fd}
  {start : Device} {l : Call Fd}

structure DescriptorInv (start : Device) (i : Nat) (s : Session Fd) : Prop where
  sound : Sound s.dev i
  same : readInode s.dev i = readInode start i
  content : s.content = contents s.dev (readInode s.dev i)
  linked : ∀ b ∈ s.linked, b ∈ (readInode s.dev i).links
  copies : ∀ d, (s.file d).inode = updateInode (readInode s.dev i)
  placed : ∀ d, Placed (readInode s.dev i).size (s.file d).offset
  leads : ∀ cs, Leads start i 0 cs → Leads s.dev i 0 cs

namespace DescriptorInv

omit [DecidableEq Fd] in
theorem write (inv : DescriptorInv start i s) (allowed : Overwrites s d buf) :
    inodeWrite s.dev (s.file d) buf = .ok (s.dev.write ((readInode s.dev i).address (s.file d).offset) buf, s.file d,
      buf.length) ∧
    DescriptorInv start i {
      dev := s.dev.write ((readInode s.dev i).address (s.file d).offset) buf
      file := s.file
      content := pwrite s.content (s.file d).offset buf
      linked := s.linked ++ (s.file d).inode.fsInode.links } := by
  obtain ⟨inside, chunk, apart⟩ := allowed
  have copy : (s.file d).inode.fsInode = readInode s.dev i := by rw [inv.copies d]; rfl
  rw [copy] at inside apart ⊢
  have sound := inv.sound
  have confined := confined_write sound.len sound.covered inside chunk apart
  have slot := confined.slots i sound.marked.1 sound.marked.2
  refine ⟨?_, confined.sound sound, slot.trans inv.same, ?_, ?_, ?_, ?_, fun cs path => ?_⟩
  · have eq := @overwrite_eq s.dev (s.file d) buf (by rw [copy]; exact sound.normal) (by rw [copy]; exact sound.len)
      (by rw [copy]; exact sound.covered) (by rw [copy]; exact inside) chunk
    rwa [copy] at eq
  · show pwrite s.content _ buf = _
    rw [slot, contents_write sound.len sound.covered sound.distinct inside chunk, inv.content]
  · intro b mem
    rw [slot]
    rcases List.mem_append.mp mem with old | new
    · exact inv.linked b old
    · exact new
  · intro e
    rw [slot]
    exact inv.copies e
  · intro e
    rw [slot]
    exact inv.placed e
  · exact confined.leads sound (inv.leads cs path)

theorem lseek (inv : DescriptorInv start i s) (offset : Int) (whence : Whence) :
    DescriptorInv start i { s with file := update s.file d (inodeLseek (s.file d) offset whence).1 } := by
  refine { inv with copies := fun e => ?_, placed := fun e => ?_ }
  · by_cases same : e = d
    · subst same
      simp only [update_self]
      exact inv.copies e
    · simp only [update_of_ne same]
      exact inv.copies e
  · by_cases same : e = d
    · subst same
      simp only [update_self]
      have size : (s.file e).inode.size = (readInode s.dev i).size := by rw [inv.copies e]; rfl
      have low := Nat.le_trans inv.sound.covered (Nat.mul_le_mul_right blockBytes inv.sound.len)
      simp only [linkSlots, blockBytes] at low
      rw [← size]
      exact inodeLseek_placed (by omega)
    · simp only [update_of_ne same]
      exact inv.placed e

end DescriptorInv

theorem descriptors_step (inv : DescriptorInv start i s) (step : CallStep Overwrites s l t) :
    DescriptorInv start i t := by
  cases step with
  | write allowed done =>
    obtain ⟨eq, kept⟩ := inv.write allowed
    cases done.symm.trans eq
    rw [update_eq_self]
    exact kept
  | lseek offset whence => exact inv.lseek offset whence
  | read done => exact inv

theorem descriptors_reachable (run : (descriptors Overwrites start i).Reachable s) : DescriptorInv start i s := by
  refine run.induct (DescriptorInv start i) ?_ fun s l t inv step => descriptors_step inv step
  rintro s ⟨sound, rfl, content, linked, opened⟩
  exact ⟨sound, rfl, content, fun b mem => linked ▸ mem, fun d => (opened d).1, fun d => (opened d).2,
    fun _ path => path⟩

/-- What is seen through a descriptor: the size, the bytes that a read from its offset stores, and the blocks. -/
structure Shows (s : Session Fd) (file : File) : Prop where
  size : file.inode.size = s.content.length
  reads : ∀ size < 2 ^ 32, ∀ before, ∃ stored, inodeRead s.dev file size before = .ok stored ∧
    (s.content.drop file.offset).take size <+: stored
  links : ∀ b ∈ s.linked, b ∈ file.inode.fsInode.links

/-- Every descriptor, and one that is opened now by any path that led to the file, shows all the writes. -/
structure Coherent (start : Device) (i : Nat) (s : Session Fd) : Prop where
  opened : ∀ d, Shows s (s.file d)
  fresh : ∀ cs, ∀ trailing : Bool, cs ≠ [] → (∀ c ∈ cs, Component c) → Leads start i 0 (ends cs) →
    ∃ file, openFile s.dev (join cs ++ if trailing then [slash] else []) = .ok (some file) ∧
      file.offset = 0 ∧ Shows s file

omit [DecidableEq Fd] in
theorem DescriptorInv.shows (inv : DescriptorInv start i s) {file : File}
    (copy : file.inode = updateInode (readInode s.dev i)) (placed : Placed (readInode s.dev i).size file.offset) :
    Shows s file := by
  have ext : file.inode.fsInode = readInode s.dev i := by rw [copy]; rfl
  refine ⟨?_, fun size small before => ?_, fun b mem => ?_⟩
  · rw [copy, inv.content, length_contents]
    rfl
  · have read := @inodeRead_stores s.dev file size before
    rw [ext, ← inv.content] at read
    exact read inv.sound.len inv.sound.covered small placed
  · rw [ext]
    exact inv.linked b mem

/-- A write that grows the file leaves every other descriptor behind. -/
theorem stale_of_grown {e : Fd} {linked : List Nat} (opened : ∀ d, Shows s (s.file d)) (other : e ≠ d)
    (grows : (s.file d).inode.size < (s.file d).offset + buf.length) :
    ¬Shows ⟨dev, update s.file d file, pwrite s.content (s.file d).offset buf, linked⟩ (update s.file d file e) := by
  intro shows
  have size := shows.size
  rw [update_of_ne other, (opened e).size, length_pwrite, ← (opened d).size] at size
  omega

/-- While every write only overwrites, all descriptors and every later one see one file. -/
theorem reachable_coherent (run : (descriptors Overwrites start i).Reachable s) : Coherent start i s := by
  have inv := descriptors_reachable run
  refine ⟨fun d => inv.shows (inv.copies d) (inv.placed d), fun cs trailing nonempty all path => ?_⟩
  exact ⟨⟨updateInode (readInode s.dev i), 0⟩, openFile_leads (inv.leads _ path) nonempty all trailing, rfl,
    inv.shows rfl (.inl (Nat.zero_le _))⟩

end

def openSession (Fd : Type) (dev : Device) (i offset : Nat) : Session Fd where
  dev := dev
  file _ := ⟨updateInode (readInode dev i), offset⟩
  content := contents dev (readInode dev i)
  linked := (readInode dev i).links

theorem openSession_reachable {Fd : Type} [DecidableEq Fd] {P : Session Fd → Fd → List Byte → Prop} {offset : Nat}
    (sound : Sound dev i) (inside : offset ≤ (readInode dev i).size) :
    (descriptors P dev i).Reachable (openSession Fd dev i offset) :=
  .init ⟨sound, rfl, rfl, rfl, fun _ => ⟨rfl, .inl inside⟩⟩

/-! ### Two descriptors -/

def flatRecords : Nat → List Record
  | 0 => [⟨0, [46], DR⟩, ⟨0, [46, 46], DR⟩, ⟨1, [102], NF⟩]
  | _ => []

def flatRoot : Inode := smallInode 0 DR ((flatRecords 0).flatMap Record.bytes).length

def flatFile : Inode := smallInode 1 NF 1024

/-- Inodes 0 and 1 and blocks 0 and 1 are in use. -/
def flat : Device := Mem.writes (fun x => if x = block imap ∨ x = block dmap then 3 else 0)
  [(table 0, flatRoot.encode), (table 1, flatFile.encode), (data 0, (flatRecords 0).flatMap Record.bytes)]

theorem flat_imap : ∀ i < mapBits, readMap flat imap i = true → i < 2 := by
  intro i hi used
  have small := first_marks (by decide +kernel) hi used
  clear hi
  revert used
  interval_cases i <;> decide +kernel

theorem flat_sound : Sound flat 1 where
  tree := by
    refine ⟨by decide +kernel, fun i hi marked directory => ?_⟩
    have small := flat_imap i hi marked
    refine ⟨flatRecords i, ⟨?_, ?_, ?_, ?_⟩, ?_⟩ <;> clear hi marked <;> interval_cases i <;>
      first | decide +kernel | exact absurd directory (by decide +kernel)
  normal := by decide +kernel
  marked := by decide +kernel
  len := by decide +kernel
  covered := by decide +kernel
  distinct := by decide +kernel
  apart := by
    intro k hk marked directory
    have small := flat_imap k hk marked
    clear hk marked
    interval_cases k
    · decide +kernel
    · exact absurd directory (by decide +kernel)

theorem flat_size : (readInode flat 1).size = 1024 := by decide +kernel

theorem flat_overwrites : Overwrites (openSession Bool flat 1 1000) true [7] where
  inside := by
    show 1001 ≤ (readInode flat 1).size
    rw [flat_size]
    decide
  chunk := by decide
  apart := by
    intro k hk marked x covers
    have small := flat_imap k hk marked
    have here : (readInode flat 1).address 1000 = data 1 + 1000 := by decide +kernel
    have before := @table_lt_data k (by omega) 1
    have from_address : (readInode flat 1).address 1000 ≤ x := covers.1
    right
    omega

/-- A byte of the file is overwritten. -/
theorem reachable_coherent_sample : ∃ s : Session Bool,
    s.content = pwrite (contents flat (readInode flat 1)) 1000 [7] ∧ Coherent flat 1 s := by
  have opened : (descriptors Overwrites flat 1).Reachable (openSession Bool flat 1 1000) :=
    openSession_reachable flat_sound (by rw [flat_size]; decide)
  have written := ((descriptors_reachable opened).write flat_overwrites).1
  have run := opened.step (.write flat_overwrites written)
  refine ⟨_, ?_, reachable_coherent run⟩
  simp only [openSession]

/-- Both descriptors append a byte; the block that the first write linked is linked no more. -/
theorem reachable_coherent_counterexample : ∃ s : Session Bool, (descriptors (fun _ _ _ => True) flat 1).Reachable s ∧
    2 ∈ s.linked ∧ 2 ∉ (readInode s.dev 1).links ∧ ¬Coherent flat 1 s := by
  have opened : (descriptors (fun _ _ _ => True) flat 1).Reachable (openSession Bool flat 1 1024) :=
    openSession_reachable flat_sound (Nat.le_of_eq flat_size.symm)
  have appended : (do
      let (dev, first, _) ← inodeWrite flat ⟨updateInode (readInode flat 1), 1024⟩ [97]
      let (dev, second, _) ← inodeWrite dev ⟨updateInode (readInode flat 1), 1024⟩ [98]
      .ok (first.inode.fsInode.links, second.inode.fsInode.links, (readInode dev 1).links)) =
      .ok ([1, 2], [1, 3], [1, 3]) := by decide +kernel
  cases one : inodeWrite flat ⟨updateInode (readInode flat 1), 1024⟩ [97] with
  | error e =>
    rw [one] at appended
    cases appended
  | ok r =>
    obtain ⟨dev, first, n⟩ := r
    cases two : inodeWrite dev ⟨updateInode (readInode flat 1), 1024⟩ [98] with
    | error e =>
      simp only [one, two, bind, Except.bind] at appended
      cases appended
    | ok r =>
      obtain ⟨dev', second, m⟩ := r
      simp only [one, two, bind, Except.bind, Except.ok.injEq, Prod.mk.injEq] at appended
      obtain ⟨firstLinks, secondLinks, table⟩ := appended
      have run := (opened.step (.write (d := true) trivial one)).step (.write (d := false) trivial two)
      have linked : 2 ∈ ((readInode flat 1).links ++ first.inode.fsInode.links) ++ second.inode.fsInode.links := by
        rw [firstLinks]
        simp
      refine ⟨_, run, linked, by simp [table], fun coherent => ?_⟩
      have kept := (coherent.opened false).links 2 linked
      simp only [update_self, secondLinks] at kept
      exact absurd kept (by decide)

end OsLabs.Ext2

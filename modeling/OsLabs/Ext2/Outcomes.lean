import OsLabs.Ext2.Transfers

/-!
# Outcomes

Every operation that issues transfers ends as the one that only says what it
computes.
-/

namespace OsLabs.Ext2.Rd
open Util Program

variable {dev : Device} {inode : Inode} {blk i a n : Nat} {x : Bool} {bs buf name : List Byte}

theorem read_computes (a n : Nat) : Computes (read a n) fun dev => .ok (dev.read a n) :=
  (Computes.issue _).bind fun _ => Computes.look _

@[simp] theorem result_write : ((write a bs).run dev).result = .ok (dev.write a bs, ()) := by
  rw [write, result_bind_ok result_issue, result_change]

@[simp] theorem headD_read : (dev.read a 1).headD 0 = dev a := by simp [Mem.read]

theorem readMap_computes (blk i : Nat) : Computes (readMap blk i) fun dev => .ok (Ext2.readMap dev blk i) := by
  intro dev
  rw [readMap, (read_computes _ _).result_next, headD_read]
  rfl

theorem result_writeMap :
    ((writeMap blk i x).run dev).result = (Ext2.writeMap dev blk i x).map fun dev => (dev, ()) := by
  have set : dev.write (map blk i) [if x then dev (map blk i) ||| mask i else dev (map blk i) &&& ~~~mask i] =
      setMap dev blk i x := rfl
  rw [writeMap, (read_computes _ _).result_next, (readMap_computes _ _).result_next, Ext2.writeMap, headD_read]
  by_cases same : Ext2.readMap dev blk i = x
  · rw [if_pos same, if_pos same]
    rfl
  rw [if_neg same, if_neg same, result_bind_ok result_write, (readMap_computes _ _).result_next, set]
  by_cases wrong : Ext2.readMap (setMap dev blk i x) blk i ≠ x
  · rw [if_pos wrong, if_pos wrong]
    rfl
  · rw [if_neg wrong, if_neg wrong]
    rfl

theorem scan_computes (blk : Nat) (is : List Nat) :
    Computes (scan blk is) fun dev => .ok (is.find? fun i => !Ext2.readMap dev blk i) := by
  induction is with
  | nil => exact fun _ => rfl
  | cons i is ih =>
    intro dev
    rw [scan, (readMap_computes _ _).result_next]
    show _ = Except.ok (dev, (i :: is).find? fun i => !Ext2.readMap dev blk i)
    cases marked : Ext2.readMap dev blk i with
    | true =>
      rw [if_pos rfl, List.find?_cons_of_neg (by simp [marked])]
      exact ih dev
    | false =>
      rw [if_neg (by decide), List.find?_cons_of_pos (by simp [marked])]
      rfl

theorem freeMap_computes (blk : Nat) : Computes (freeMap blk) fun dev => .ok (Ext2.freeMap dev blk) :=
    scan_computes blk _

@[simp] theorem result_noFreeBit {α : Type} : ((noFreeBit blk : RdProgram α).run dev).result = .error .noFreeBit := by
  rw [noFreeBit, (read_computes _ _).result_next, result_stop]

theorem readInode_computes (i : Nat) : Computes (readInode i) fun dev => .ok (Ext2.readInode dev i) := by
  intro dev
  have same : Ext2.readInode (Mem.write (fun _ => 0) (table i) (dev.read (table i) inodeBytes)) i =
      Ext2.readInode dev i := by
    apply readInode_congr
    intro x lo hi
    obtain ⟨j, rfl⟩ := Nat.exists_eq_add_of_le lo
    have inside : j < (dev.read (table i) inodeBytes).length := by
      rw [Mem.read_length]
      omega
    rw [Mem.write_at j inside, Mem.read_getElem]
  rw [readInode, (read_computes _ _).result_next, same]
  rfl

@[simp] theorem result_writeInode : ((writeInode i inode).run dev).result = .ok (Ext2.writeInode dev i inode, ()) :=
    result_write

theorem result_inodeCreate {gid type per : Nat} :
    ((inodeCreate gid type per).run dev).result = Ext2.inodeCreate dev gid type per := by
  rw [inodeCreate, (freeMap_computes _).result_next]
  cases found : Ext2.freeMap dev imap with
  | none => rw [Ext2.inodeCreate_none found, result_noFreeBit]
  | some index =>
    have unmarked : Ext2.readMap dev imap index ≠ true := by simp [(freeMap_some found).2]
    have marked : ((writeMap imap index true).run dev).result = .ok (setMap dev imap index true, ()) := by
      rw [result_writeMap, writeMap_eq unmarked]
      rfl
    rw [Ext2.inodeCreate_eq found, result_bind_ok marked]
    rfl

theorem result_clearLoop (is : List Nat) : ((clearLoop inode is).run dev).result =
    (is.foldlM (fun dev i => do Ext2.writeMap dev dmap (← inode.linkAt i) false) dev).map fun dev => (dev, ()) := by
  induction is generalizing dev with
  | nil => rfl
  | cons i is ih =>
    rw [clearLoop, (Computes.lift _).result_bind, List.foldlM_cons]
    cases inode.linkAt i with
    | error e => rfl
    | ok b =>
      show ((writeMap dmap b false >>= fun _ => clearLoop inode is).run dev).result =
        (Ext2.writeMap dev dmap b false >>= _).map _
      rw [Program.result_bind, result_writeMap]
      cases Ext2.writeMap dev dmap b false with
      | error e => rfl
      | ok dev => exact ih

theorem result_inodeRemove :
    ((inodeRemove inode).run dev).result = (Ext2.inodeRemove dev inode).map fun dev => (dev, ()) := by
  rw [inodeRemove, Program.result_bind, result_writeMap, Ext2.inodeRemove]
  cases Ext2.writeMap dev imap inode.index false with
  | error e => rfl
  | ok dev => exact result_clearLoop _

/-! ### How writes end -/

section

variable {offset fuel cnt size originalLen : Nat} {first : Bool} {file : File}

theorem result_allocate : ((allocate inode).run dev).result = Ext2.allocate dev inode := by
  unfold allocate Ext2.allocate
  rw [(freeMap_computes _).result_next]
  generalize found : Ext2.freeMap dev dmap = r
  cases r with
  | none =>
    simp only
    exact result_noFreeBit
  | some b =>
    have unmarked : Ext2.readMap dev dmap b ≠ true := by simp [(freeMap_some found).2]
    have marked : ((writeMap dmap b true).run dev).result = .ok (setMap dev dmap b true, ()) := by
      rw [result_writeMap, writeMap_eq unmarked]
      rfl
    simp only [writeMap_eq unmarked]
    by_cases room : inode.len < linkSlots
    · rw [if_pos room, if_pos room, result_bind_ok marked]
      rfl
    · rw [if_neg room, if_neg room, result_stop]

theorem result_writeChunk : ((writeChunk inode offset bs).run dev).result =
    (Ext2.writeChunk dev inode offset bs).map fun dev => (dev, ()) := by
  rw [writeChunk, (Computes.lift _).result_bind, Ext2.writeChunk]
  cases inode.linkAt (offset / blockBytes) with
  | error e => rfl
  | ok b => exact result_write

theorem result_writeLoop : ((writeLoop originalLen offset fuel inode first buf).run dev).result =
    Ext2.writeLoop originalLen offset fuel dev inode first buf := by
  induction fuel generalizing dev inode first buf with
  | zero =>
    unfold writeLoop Ext2.writeLoop
    split <;> rfl
  | succ fuel ih =>
    unfold writeLoop Ext2.writeLoop
    split
    · rfl
    split
    · simp only [Program.result_bind, result_writeChunk]
      cases Ext2.writeChunk dev inode offset _ with
      | error e => rfl
      | ok dev => exact ih
    · rw [Program.result_bind, result_allocate]
      cases Ext2.allocate dev inode with
      | error e => rfl
      | ok done =>
        obtain ⟨dev, inode⟩ := done
        show ((writeChunk inode offset _ >>= _).run dev).result = (Ext2.writeChunk dev inode offset _ >>= _)
        rw [Program.result_bind, result_writeChunk]
        cases Ext2.writeChunk dev inode offset _ with
        | error e => rfl
        | ok dev => exact ih

theorem result_dataWrite : ((dataWrite inode buf offset).run dev).result = Ext2.dataWrite dev inode buf offset := by
  rw [dataWrite, Program.result_bind, result_writeLoop, Ext2.dataWrite]
  cases Ext2.writeLoop inode.len offset buf.length dev inode true buf with
  | error e => rfl
  | ok done =>
    obtain ⟨dev, inode⟩ := done
    show ((if _ then _ else _ : RdProgram Inode).run dev).result = if _ then _ else _
    split
    · rw [result_bind_ok result_writeInode]
      rfl
    · rfl

/-- Every block has a first link. -/
theorem result_writeBelow {α : Type} {n : Nat} :
    ((writeBelow inode offset n : RdProgram α).run dev).result = .error .bounds := by
  unfold writeBelow
  split
  · rfl
  · rw [Inode.linkAt_eq (by decide)]
    rfl

theorem result_inodeWrite : ((inodeWrite file buf).run dev).result = Ext2.inodeWrite dev file buf := by
  simp only [inodeWrite, Ext2.inodeWrite]
  split
  · rfl
  split
  · split
    · exact result_writeBelow
    rw [Program.result_bind, result_writeLoop]
    cases Ext2.writeLoop file.inode.fsInode.len (file.offset % 2 ^ 32) buf.length dev file.inode.fsInode true buf with
    | error e => rfl
    | ok done =>
      obtain ⟨dev, inode⟩ := done
      show ((if _ then _ else _ : RdProgram (File × Nat)).run dev).result = if _ then _ else _
      split
      · rw [result_bind_ok result_writeInode]
        rfl
      · rfl
  · rfl

/-! ### How reads end -/

theorem readChunk_computes (inode : Inode) (offset : Nat) (left : Int) :
    Computes (readChunk inode offset left) (fun dev =>
    if left < 0 then .error .bounds
    else do
      let b ← inode.linkAt (offset / blockBytes)
      .ok (dev.read (data b + offset % blockBytes) left.toNat)) := by
  intro dev
  rw [readChunk, (Computes.lift _).result_bind]
  cases slot : inode.linkAt (offset / blockBytes) with
  | error e =>
    unfold Inode.linkAt at slot
    split at slot
    · cases slot
    · obtain rfl := Except.error.inj slot
      split <;> rfl
  | ok b =>
    show ((if _ then _ else _ : RdProgram (List Byte)).run dev).result = _
    split
    · rw [(Computes.issue _).result_bind]
      rfl
    · exact read_computes _ _ dev

theorem readLoop_computes (fuel cnt size offset : Nat) (first : Bool) :
    Computes (readLoop inode fuel cnt size offset first)
    fun dev => Ext2.readLoop dev inode fuel cnt size offset first := by
  induction fuel generalizing cnt size offset first with
  | zero => exact fun _ => rfl
  | succ fuel ih =>
    intro dev
    show _ = Except.map _ (Ext2.readLoop dev inode (fuel + 1) cnt size offset first)
    rw [readLoop, Ext2.readLoop]
    split
    · simp only [(readChunk_computes _ _ _).result_bind, (ih _ _ _ _).result_bind]
      split
      · rfl
      · cases inode.linkAt (offset / blockBytes) with
        | error e => rfl
        | ok b =>
          simp only [bind, Except.bind]
          cases Ext2.readLoop dev inode fuel (cnt + 1) _ _ false <;> rfl
    · rfl

theorem dataRead_computes (inode : Inode) (size offset : Nat) :
    Computes (dataRead inode size offset) fun dev => Ext2.dataRead dev inode size offset := readLoop_computes _ _ _ _ _

theorem inodeReadLoop_computes (fuel cnt size offset : Nat) (first : Bool) :
    Computes (inodeReadLoop inode fuel cnt size offset first)
      fun dev => Ext2.inodeReadLoop dev inode fuel cnt size offset first := by
  induction fuel generalizing cnt size offset first with
  | zero => exact fun _ => rfl
  | succ fuel ih =>
    intro dev
    show _ = Except.map _ (Ext2.inodeReadLoop dev inode (fuel + 1) cnt size offset first)
    rw [inodeReadLoop, Ext2.inodeReadLoop]
    split
    · simp only [(readChunk_computes _ _ _).result_bind, (ih _ _ _ _).result_bind]
      split
      · rfl
      · cases inode.linkAt (offset / blockBytes) with
        | error e => rfl
        | ok b =>
          simp only [bind, Except.bind]
          cases Ext2.inodeReadLoop dev inode fuel (cnt + 1) _ _ false <;> rfl
    · rfl

theorem inodeRead_computes (file : File) (size : Nat) (before : Byte) :
    Computes (inodeRead file size before) fun dev => Ext2.inodeRead dev file size before := by
  intro dev
  show _ = Except.map _ (Ext2.inodeRead dev file size before)
  rw [inodeRead, (inodeReadLoop_computes _ _ _ _ _).result_bind, Ext2.inodeRead]
  cases Ext2.inodeReadLoop dev file.inode.fsInode (file.inode.fsInode.size + 1) (file.offset % 2 ^ 32 / blockBytes) size
    (file.offset % 2 ^ 32) true <;> rfl

/-! ### How the other operations end -/

theorem result_createEntry {entryInode type : Nat} : ((createEntry inode entryInode name type).run dev).result =
    Ext2.createEntry dev inode entryInode name type :=
  result_bind_of result_dataWrite fun _ _ => result_dataWrite

theorem lookupLoop_computes (fuel : Nat) (cur : Option (List Byte)) (offset : Nat) :
    Computes (lookupLoop inode name fuel cur offset) fun dev => Ext2.lookupLoop dev inode name fuel cur offset := by
  induction fuel generalizing cur offset with
  | zero => exact fun _ => rfl
  | succ fuel ih =>
    intro dev
    show _ = Except.map _ (Ext2.lookupLoop dev inode name (fuel + 1) cur offset)
    rw [lookupLoop, Ext2.lookupLoop]
    split
    · split
      · rfl
      rw [(dataRead_computes _ _ _).result_bind]
      cases Ext2.dataRead dev inode entryBytes offset with
      | error e => rfl
      | ok bytes =>
        show ((lift (overlay cur bytes) >>= _).run dev).result = Except.map _ (overlay cur bytes >>= _)
        rw [(Computes.lift _).result_bind]
        cases overlay cur bytes with
        | error e => rfl
        | ok cur =>
          show ((if _ then _ else _ : RdProgram Int).run dev).result = Except.map _ (if _ then _ else _)
          split
          · exact ih _ _ dev
          split
          · rfl
          rw [(dataRead_computes _ _ _).result_bind]
          cases Ext2.dataRead dev inode (Entry.decode cur).nameLen (offset + entryBytes) with
          | error e => rfl
          | ok tmpName =>
            show ((lift (sameName name tmpName) >>= _).run dev).result = Except.map _ (sameName name tmpName >>= _)
            rw [(Computes.lift _).result_bind]
            cases sameName name tmpName with
            | error e => rfl
            | ok same =>
              cases same with
              | true => rfl
              | false => exact ih _ _ dev
    · rfl

theorem dirLookup_computes (inode : Inode) (name : List Byte) :
    Computes (dirLookup inode name) fun dev => Ext2.dirLookup dev inode name := lookupLoop_computes _ _ _

theorem readEntry_computes (inode : Inode) (offset : Nat) : Computes (readEntry inode offset) (fun dev => do
    let b ← inode.linkAt (offset / blockBytes)
    .ok (Entry.decode (dev.read (data b + offset % blockBytes) entryBytes))) := by
  intro dev
  rw [readEntry, (Computes.lift _).result_bind]
  cases inode.linkAt (offset / blockBytes) with
  | error e => rfl
  | ok b =>
    have rest : ((read (data b + offset % blockBytes) entryBytes >>= fun bytes => pure (Entry.decode bytes)).run
        dev).result =
        .ok (dev, Entry.decode (dev.read (data b + offset % blockBytes) entryBytes)) := by
      rw [(read_computes _ _).result_next, result_pure]
    exact rest

theorem removeLoop_computes (index fuel : Nat) (cur : Option Entry) (offset : Nat) :
    Computes (removeLoop inode index fuel cur offset) fun dev => Ext2.removeLoop dev inode index fuel cur offset := by
  induction fuel generalizing cur offset with
  | zero => exact fun _ => rfl
  | succ fuel ih =>
    intro dev
    show _ = Except.map _ (Ext2.removeLoop dev inode index (fuel + 1) cur offset)
    rw [removeLoop, Ext2.removeLoop]
    split
    · rw [(readEntry_computes _ _).result_bind]
      cases inode.linkAt (offset / blockBytes) with
      | error e => rfl
      | ok b =>
        show ((if _ then _ else _ : RdProgram (Option Entry × Nat)).run dev).result = Except.map _ (if _ then _ else _)
        split
        · rfl
        · exact ih _ _ dev
    · rfl

theorem result_dirRemove {index : Nat} : ((dirRemove inode index).run dev).result = Ext2.dirRemove dev inode index := by
  rw [dirRemove, (removeLoop_computes _ _ _ _).result_bind, Ext2.dirRemove]
  cases Ext2.removeLoop dev inode index (inode.size + 1) none 0 with
  | error e => rfl
  | ok found =>
    obtain ⟨cur, offset⟩ := found
    cases cur with
    | none => rfl
    | some e =>
      show ((writeChunk inode offset e.encode >>= _).run dev).result = (inode.linkAt (offset / blockBytes) >>= _)
      rw [Program.result_bind, result_writeChunk, Ext2.writeChunk]
      cases inode.linkAt (offset / blockBytes) with
      | error e => rfl
      | ok b => exact result_bind_ok result_writeInode

theorem pathLoop_computes (fuel : Nat) (inode : Inode) (tmp : Option (List Byte)) :
    Computes (pathLoop fuel inode tmp) fun dev => Ext2.pathLoop dev fuel inode tmp := by
  induction fuel generalizing inode tmp with
  | zero => exact fun _ => rfl
  | succ fuel ih =>
    intro dev
    show _ = Except.map _ (Ext2.pathLoop dev (fuel + 1) inode tmp)
    rw [pathLoop, Ext2.pathLoop]
    cases rootdir tmp with
    | none => rfl
    | some pre =>
      simp only
      rw [(dirLookup_computes _ _).result_bind]
      cases Ext2.dirLookup dev inode pre with
      | error e => rfl
      | ok index =>
        show ((if _ then _ else _ : RdProgram (Option Inode)).run dev).result = Except.map _ (if _ then _ else _)
        split
        · rw [(readInode_computes _).result_next]
          exact ih _ _ dev
        · rfl

theorem inodeLookup_computes (name : Option (List Byte)) :
    Computes (inodeLookup name) fun dev => Ext2.inodeLookup dev name := by
  intro dev
  cases name with
  | none => rfl
  | some name =>
    rw [inodeLookup, (readInode_computes _).result_next]
    exact pathLoop_computes _ _ _ dev

theorem lookup_computes (name : List Byte) : Computes (lookup name) fun dev => Ext2.lookup dev name := by
  intro dev
  rw [lookup, (inodeLookup_computes _).result_bind]
  show _ = Except.map _ (Ext2.inodeLookup dev (some name) >>= _)
  cases Ext2.inodeLookup dev (some name) with
  | error e => rfl
  | ok found => cases found <;> rfl

theorem listLoop_computes (fileOffset fuel cnt size offset ret bufOffset : Nat) (buf : List Byte) :
    Computes (listLoop inode fileOffset fuel cnt size offset ret bufOffset buf)
      fun dev => Ext2.listLoop dev inode fileOffset fuel cnt size offset ret bufOffset buf := by
  induction fuel generalizing cnt size offset ret bufOffset buf with
  | zero => exact fun _ => rfl
  | succ fuel ih =>
    intro dev
    show _ = Except.map _ (Ext2.listLoop dev inode fileOffset (fuel + 1) cnt size offset ret bufOffset buf)
    rw [listLoop, Ext2.listLoop]
    split
    · rw [(readEntry_computes _ _).result_bind]
      cases inode.linkAt (offset / blockBytes) with
      | error e => rfl
      | ok b =>
        show ((if _ then _ else _ : RdProgram (List Byte × Nat × Nat)).run dev).result = Except.map _
          (if _ then _ else _)
        split
        · exact ih _ _ _ _ _ _ dev
        rw [(Computes.lift _).result_bind]
        cases inode.linkAt ((offset + entryBytes) / blockBytes) with
        | error e => rfl
        | ok b' =>
          simp only [ok_bind]
          rw [(read_computes _ _).result_next]
          split
          · rw [(Computes.lift _).result_bind]
            cases strlen (dev.read _ _) with
            | none => rfl
            | some n =>
              show ((lift (inBuffer (strncpy buf bufOffset _ n)) >>= _).run dev).result =
                Except.map _ (inBuffer (strncpy buf bufOffset _ n) >>= _)
              rw [(Computes.lift _).result_bind]
              cases inBuffer (strncpy buf bufOffset _ n) with
              | error e => rfl
              | ok copy =>
                show ((lift (inBuffer (strcat copy [newline])) >>= _).run dev).result =
                  Except.map _ (inBuffer (strcat copy [newline]) >>= _)
                rw [(Computes.lift _).result_bind]
                cases inBuffer (strcat copy [newline]) with
                | error e => rfl
                | ok line => exact ih _ _ _ _ _ _ dev
          · exact ih _ _ _ _ _ _ dev
    · rfl

theorem inodeList_computes (file : File) (buf : List Byte) (size : Nat) :
    Computes (inodeList file buf size) fun dev => Ext2.inodeList dev file buf size := by
  intro dev
  show _ = Except.map _ (Ext2.inodeList dev file buf size)
  rw [inodeList, (listLoop_computes _ _ _ _ _ _ _ _).result_bind, Ext2.inodeList]
  cases Ext2.listLoop dev file.inode.fsInode file.offset _ 0 size 0 0 0 buf with
  | error e => rfl
  | ok done =>
    obtain ⟨buf, ret, bufOffset⟩ := done
    show ((lift (inBuffer (poke buf bufOffset [0])) >>= _).run dev).result =
      Except.map _ (inBuffer (poke buf bufOffset [0]) >>= _)
    rw [(Computes.lift _).result_bind]
    cases inBuffer (poke buf bufOffset [0]) <;> rfl

theorem result_createFile {gid per type : Nat} {isroot : Bool} :
    ((createFile gid name isroot per type).run dev).result =
    Ext2.createFile dev gid name isroot per type := by
  cases isroot with
  | true =>
    simp only [createFile, Ext2.createFile, if_true]
    apply result_bind_of result_inodeCreate
    intro dev made
    apply result_bind_of result_createEntry
    intro dev dir
    apply result_bind_of result_createEntry
    intro dev dir
    exact result_bind_ok result_writeInode
  | false =>
    simp only [createFile, Ext2.createFile, Bool.false_eq_true, if_false]
    rw [(inodeLookup_computes _).result_bind]
    cases Ext2.inodeLookup dev (alldir (some name)) with
    | error e => rfl
    | ok found =>
      cases found with
      | none => rfl
      | some father =>
        cases filename (some name) with
        | none => rfl
        | some post =>
          simp only [ok_bind]
          apply result_bind_of result_inodeCreate
          intro dev made
          split
          · apply result_bind_of result_createEntry
            intro dev dir
            apply result_bind_of result_createEntry
            intro dev dir
            apply result_bind_of result_createEntry
            intro dev father
            exact (result_bind_ok result_writeInode).trans (result_bind_ok result_writeInode)
          · apply result_bind_of result_createEntry
            intro dev father
            exact (result_bind_ok result_writeInode).trans (result_bind_ok result_writeInode)

theorem result_bzero {x : Nat} : ((bzero x).run dev).result = .ok (Ext2.bzero dev x, ()) := result_write

theorem result_bzeroLoop (is : List Nat) : ((bzeroLoop is).run dev).result =
    .ok (is.foldl (fun dev i => Ext2.bzero dev (itable + i)) dev, ()) := by
  induction is generalizing dev with
  | nil => rfl
  | cons i is ih => exact (result_bind_ok result_bzero).trans ih

theorem result_ext2Init {gid : Nat} : ((ext2Init gid name).run dev).result = Ext2.ext2Init dev gid name := by
  rw [ext2Init, result_bind_ok result_bzero, result_bind_ok result_bzero,
    result_bind_ok (result_bzeroLoop _), Ext2.ext2Init]
  apply result_bind_of result_createFile
  intro dev made
  rfl

theorem result_rm : ((rm name).run dev).result = Ext2.rm dev name := by
  unfold rm Ext2.rm
  split
  · rfl
  rw [(inodeLookup_computes _).result_bind]
  cases Ext2.inodeLookup dev (alldir (some name)) with
  | error e => rfl
  | ok found =>
    cases found with
    | none => rfl
    | some dir =>
      cases filename (some name) with
      | none => rfl
      | some post =>
        show ((dirLookup dir post >>= _).run dev).result = (Ext2.dirLookup dev dir post >>= _)
        rw [(dirLookup_computes _ _).result_bind]
        cases Ext2.dirLookup dev dir post with
        | error e => rfl
        | ok index =>
          show ((if _ then _ else _ : RdProgram Int).run dev).result = if _ then _ else _
          split
          · rfl
          rw [(readInode_computes _).result_next]
          show ((if _ then _ else _ : RdProgram Int).run dev).result = if _ then _ else _
          split
          · rfl
          apply result_bind_of result_dirRemove
          intro dev₁ dir
          show ((if _ then _ else _ : RdProgram Int).run dev₁).result = if _ then _ else _
          split
          · rw [Program.result_bind, result_inodeRemove]
            cases Ext2.inodeRemove dev₁ _ <;> rfl
          · rw [result_bind_ok result_writeInode]
            rfl

theorem result_inodeLink {file : File} : ((inodeLink file name).run dev).result = Ext2.inodeLink dev file name := by
  rw [inodeLink, (inodeLookup_computes _).result_bind, Ext2.inodeLink]
  cases Ext2.inodeLookup dev (alldir (some name)) with
  | error e => rfl
  | ok found =>
    cases found with
    | none => rfl
    | some father =>
      cases filename (some name) with
      | none => rfl
      | some post =>
        apply result_bind_of result_createEntry
        intro dev father
        rw [result_bind_ok result_writeInode]
        rfl

end

end OsLabs.Ext2.Rd

import OsLabs.Frecov.Bounds

/-!
# The names that frecov gives to the pictures

A name is put together from the entries in front of the short one, and then `iswbmp`
writes `bmp` behind its first dot, whatever stands there.
-/

namespace OsLabs.Frecov

def dotBmp : List Nat := [46, 98, 109, 112]

/-- The units of a name in long-name entries: a NUL behind it and 0xFFFF to the end of the last entry. -/
def longFill (u : List Nat) : List Nat :=
  if u.length % 13 = 0 then u else u ++ 0 :: List.replicate (12 - u.length % 13) 65535

/-- The name `u` stands in the long-name entries in front of the short entry at `ptr`. -/
structure Encoded (img : List Byte) (ptr : Int) (u : List Nat) : Prop where
  run : LongRun img (ptr - 32) ((u.length + 12) / 13)
  units : longName img (ptr - 32) ((u.length + 12) / 13) = longFill u

/-- The array `name` as a wide string, once `iswbmp` has answered that it is one of a picture. -/
def assembled (img : List Byte) (ptr : Int) : Except Fault (Option (List Nat)) := do
  let name ← longEntries img (ptr - 32) 0 (List.replicate nameSize 0)
  let name ← iswbmp name
  .ok (name.map fun name => name.takeWhile (· ≠ 0))

variable {img : List Byte} {ptr : Int} {u front back rest tail : List Nat} {a b c x y z : Nat}

/-! ### The string in the array -/

/-- Behind the units of the name comes a NUL, also when they fill their last entry. -/
theorem longFill_padded (u : List Nat) {r : Nat} (room : 0 < r) :
    ∃ rest, longFill u ++ List.replicate r 0 = u ++ 0 :: rest := by
  unfold longFill
  split
  · obtain ⟨r, rfl⟩ := Nat.exists_eq_succ_of_ne_zero room.ne'
    exact ⟨List.replicate r 0, rfl⟩
  · exact ⟨_, by rw [List.append_assoc, List.cons_append]⟩

theorem takeWhile_string (plain : 0 ∉ u) : (u ++ 0 :: rest).takeWhile (· ≠ 0) = u := by
  rw [List.takeWhile_append_of_pos]
  · simp
  · intro x mem
    apply decide_eq_true
    rintro rfl
    exact plain mem

theorem findIdx_first (first : 46 ∉ front) : (front ++ 46 :: back).findIdx? (· = 46) = some front.length := by
  have none : front.findIdx? (· = 46) = none := by
    apply List.findIdx?_eq_none_iff.mpr
    intro x mem
    apply decide_eq_false
    rintro rfl
    exact first mem
  rw [List.findIdx?_append, none, List.findIdx?_cons]
  simp

theorem set_behind (front : List Nat) : (((front ++ 46 :: a :: b :: c :: back).set (front.length + 1) x).set
    (front.length + 2) y).set (front.length + 3) z = front ++ 46 :: x :: y :: z :: back := by
  induction front with
  | nil => rfl
  | cons d front ih => exact congrArg (d :: ·) ih

/-- `iswbmp` on a string with its first dot behind `front`. -/
theorem iswbmp_first (first : 46 ∉ front) (plain : 0 ∉ front ++ 46 :: a :: b :: c :: back)
    (short : front.length + 4 ≤ nameSize) :
    iswbmp (front ++ 46 :: a :: b :: c :: back ++ 0 :: rest) =
      .ok (some (front ++ 46 :: 98 :: 109 :: 112 :: back ++ 0 :: rest)) := by
  unfold iswbmp
  rw [takeWhile_string plain, findIdx_first first]
  dsimp only
  rw [putName_ok (by omega)]
  simp only [bind, Except.bind]
  rw [putName_ok (by omega)]
  dsimp only
  rw [putName_ok (by omega), List.append_assoc]
  dsimp only [List.cons_append]
  rw [set_behind, List.append_assoc]
  rfl

/-! ### The entries of a name -/

def longEntry (serial checksum : Byte) (units : List Nat) : List Byte :=
  serial :: ((units.take 5).flatMap (encodeLE 2) ++ [15, 0, checksum] ++
    ((units.drop 5).take 6).flatMap (encodeLE 2) ++ [0, 0] ++ (units.drop 11).flatMap (encodeLE 2))

/-- The `k` entries of a name as they stand in a directory, the last part first. -/
def longDir (serial : Nat → Byte) (checksum : Byte) : Nat → List Nat → List Byte
  | 0, _ => []
  | k + 1, units => longDir serial checksum k (units.drop 13) ++ longEntry (serial k) checksum (units.take 13)

/-- A field of an entry that stands behind `before`. -/
theorem field_inner {before middle after : List Byte} {offset : Int} {len : Nat} (low : 0 ≤ offset)
    (inside : offset + len ≤ middle.length) :
    field (before ++ (middle ++ after)) (before.length + offset) len = field middle offset len := by
  obtain ⟨o, rfl⟩ := Int.eq_ofNat_of_zero_le low
  have start : ((before.length : Int) + o).toNat = before.length + o := Int.toNat_natCast _
  unfold field bytes
  rw [start, Int.toNat_natCast, List.drop_length_add_append, List.drop_append_of_le_length (by omega),
    List.take_append_of_le_length (by rw [List.length_drop]; omega)]

theorem decode_unit {c : Nat} (wide : c < 65536) : decodeLE (encodeLE 2 c) = c := by
  rw [decodeLE_encodeLE]
  exact Nat.mod_eq_of_lt wide

/-- The fields of an entry by itself. -/
theorem longEntry_fields (serial checksum : Byte) {units : List Nat} (whole : units.length = 13)
    (wide : ∀ c ∈ units, c < 65536) : (longEntry serial checksum units).length = 32 ∧
      field (longEntry serial checksum units) 11 1 = 15 ∧ field (longEntry serial checksum units) 26 2 = 0 ∧
      nameOffsets.map (fun offset => field (longEntry serial checksum units) offset 2) = units := by
  match units, whole with
  | [a, b, c, d, e, f, g, h, i, j, k, l, m], _ =>
    refine ⟨rfl, rfl, rfl, ?_⟩
    change [a, b, c, d, e, f, g, h, i, j, k, l, m].map (fun c => decodeLE (encodeLE 2 c)) = _
    rw [List.map_congr_left fun c mem => decode_unit (wide c mem), List.map_id']

/-- It is read back wherever it stands. -/
theorem longEntry_read (before after : List Byte) (serial checksum : Byte) {units : List Nat}
    (whole : units.length = 13) (wide : ∀ c ∈ units, c < 65536) :
    Long (before ++ (longEntry serial checksum units ++ after)) before.length ∧
      part (before ++ (longEntry serial checksum units ++ after)) before.length = units := by
  obtain ⟨size, flag, cluster, fields⟩ := longEntry_fields serial checksum whole wide
  refine ⟨⟨?_, ?_, ?_⟩, ?_⟩
  · unfold Inside
    rw [List.length_append, List.length_append, size]
    omega
  · rw [field_inner (by decide) (by rw [size]; decide), flag]
  · rw [field_inner (by decide) (by rw [size]; decide), cluster]
  · refine Eq.trans ?_ fields
    unfold part
    apply List.map_congr_left
    intro offset mem
    have bounds : 0 ≤ offset ∧ offset + 2 ≤ 32 := by
      have all : ∀ offset ∈ nameOffsets, 0 ≤ offset ∧ offset + 2 ≤ 32 := by decide
      exact all offset mem
    exact field_inner bounds.1 (by rw [size]; omega)

theorem longDir_length (serial : Nat → Byte) (checksum : Byte) {k : Nat} {units : List Nat}
    (whole : units.length = 13 * k) (wide : ∀ c ∈ units, c < 65536) :
    (longDir serial checksum k units).length = 32 * k := by
  induction k generalizing units with
  | zero => rfl
  | succ k ih =>
    have first := longEntry_fields (serial k) checksum (by rw [List.length_take]; omega : (units.take 13).length = 13)
      fun c mem => wide c (List.mem_of_mem_take mem)
    rw [longDir, List.length_append, first.1, ih (by rw [List.length_drop]; omega)
      fun c mem => wide c (List.mem_of_mem_drop mem)]
    omega

/-- The entries of a directory are read back, up to the one in front of them. -/
theorem longDir_read (serial : Nat → Byte) (checksum : Byte) {k : Nat} {units : List Nat} {before : List Byte}
    (whole : units.length = 13 * k) (wide : ∀ c ∈ units, c < 65536) (after : List Byte)
    (ends : Ends (before ++ (longDir serial checksum k units ++ after)) (before.length - 32)) :
    LongRun (before ++ (longDir serial checksum k units ++ after)) (before.length + 32 * k - 32) k ∧
      longName (before ++ (longDir serial checksum k units ++ after)) (before.length + 32 * k - 32) k = units := by
  induction k generalizing units after with
  | zero =>
    have empty : units = [] := List.length_eq_zero_iff.mp whole
    have place : (before.length : Int) + 32 * (0 : Nat) - 32 = before.length - 32 := by omega
    refine ⟨?_, empty.symm⟩
    rw [place]
    exact ends
  | succ k ih =>
    have left : (units.drop 13).length = 13 * k := by
      rw [List.length_drop]
      omega
    have wide' : ∀ c ∈ units.drop 13, c < 65536 := fun c mem => wide c (List.mem_of_mem_drop mem)
    have size := longDir_length serial checksum left wide'
    have split : before ++ (longDir serial checksum (k + 1) units ++ after) =
        before ++ (longDir serial checksum k (units.drop 13) ++
          (longEntry (serial k) checksum (units.take 13) ++ after)) := by
      rw [longDir, List.append_assoc]
    have place : (before.length : Int) + 32 * (k + 1 : Nat) - 32 =
        ((before ++ longDir serial checksum k (units.drop 13)).length : Nat) := by
      rw [List.length_append, size]
      omega
    have next :
        ((before ++ longDir serial checksum k (units.drop 13)).length : Int) - 32 = before.length + 32 * k - 32 := by
      rw [List.length_append, size]
      omega
    rw [split] at ends ⊢
    obtain ⟨run, name⟩ := ih left wide' _ ends
    obtain ⟨long, own⟩ := longEntry_read (before ++ longDir serial checksum k (units.drop 13)) after (serial k) checksum
      (by rw [List.length_take]; omega : (units.take 13).length = 13) fun c mem => wide c (List.mem_of_mem_take mem)
    rw [List.append_assoc] at long own
    rw [place]
    refine ⟨⟨long, ?_⟩, ?_⟩
    · rw [next]
      exact run
    · rw [longName, own, next, name, List.take_append_drop]

theorem longFill_length (u : List Nat) : (longFill u).length = 13 * ((u.length + 12) / 13) := by
  unfold longFill
  split
  · omega
  · rw [List.length_append, List.length_cons, List.length_replicate]
    omega

/-- The entries that a file system writes for a name have the name encoded. -/
theorem encoded_longDir (serial : Nat → Byte) (checksum : Byte) {before : List Byte} (wide : ∀ c ∈ u, c < 65536)
    (after : List Byte)
    (ends : Ends (before ++ (longDir serial checksum ((u.length + 12) / 13) (longFill u) ++ after))
      (before.length - 32)) :
    Encoded (before ++ (longDir serial checksum ((u.length + 12) / 13) (longFill u) ++ after))
      (before.length + 32 * ((u.length + 12) / 13 : Nat)) u := by
  have filled : ∀ c ∈ longFill u, c < 65536 := by
    unfold longFill
    split
    · exact wide
    · intro c mem
      rcases List.mem_append.mp mem with mem | mem
      · exact wide c mem
      · rcases List.mem_cons.mp mem with rfl | mem
        · decide
        · rw [List.eq_of_mem_replicate mem]
          decide
  obtain ⟨run, units⟩ := longDir_read serial checksum (longFill_length u) filled after ends
  exact ⟨run, units⟩

/-! ### The name of an entry -/

theorem longEntries_encoded (encoded : Encoded img ptr u) (short : u.length ≤ 117) :
    ∃ rest, longEntries img (ptr - 32) 0 (List.replicate nameSize 0) = .ok (u ++ 0 :: rest) := by
  have few : (u.length + 12) / 13 ≤ 9 := by omega
  have room : 0 < nameSize - 13 * ((u.length + 12) / 13) := by
    unfold nameSize
    omega
  obtain ⟨rest, padded⟩ := longFill_padded u room
  refine ⟨rest, longEntries_start.mpr ⟨_, few, encoded.run, ?_⟩⟩
  rw [encoded.units, padded]

/-- A name with an extension has a first dot, and three units behind it. -/
theorem first_dot (ends : dotBmp <:+ u) : ∃ front a b c back, 46 ∉ front ∧ u = front ++ 46 :: a :: b :: c :: back ∧
    u.dropWhile (· ≠ 46) = 46 :: a :: b :: c :: back := by
  obtain ⟨stem, rfl⟩ := ends
  induction stem with
  | nil => exact ⟨[], 98, 109, 112, [], List.not_mem_nil, rfl, rfl⟩
  | cons d stem ih =>
    by_cases dot : d = 46
    · subst dot
      have long : 3 ≤ (stem ++ dotBmp).length := by simp [dotBmp]
      match found : stem ++ dotBmp, long with
      | a :: b :: c :: back, _ =>
        rw [List.cons_append, found]
        exact ⟨[], a, b, c, back, List.not_mem_nil, rfl, rfl⟩
    · obtain ⟨front, a, b, c, back, first, split, behind⟩ := ih
      refine ⟨d :: front, a, b, c, back, ?_, ?_, ?_⟩
      · simp only [List.mem_cons, not_or]
        exact ⟨fun same => dot same.symm, first⟩
      · rw [List.cons_append, split]
        rfl
      · rw [List.cons_append, List.dropWhile_cons_of_pos (by simpa using dot), behind]

/-- The name that is put together for an encoded one. -/
theorem assembled_eq (encoded : Encoded img ptr (front ++ 46 :: a :: b :: c :: back)) (first : 46 ∉ front)
    (plain : 0 ∉ front ++ 46 :: a :: b :: c :: back) (short : (front ++ 46 :: a :: b :: c :: back).length ≤ 117) :
    assembled img ptr = .ok (some (front ++ 46 :: 98 :: 109 :: 112 :: back)) := by
  obtain ⟨rest, entries⟩ := longEntries_encoded encoded short
  have plain' : 0 ∉ front ++ 46 :: 98 :: 109 :: 112 :: back := by
    simp only [List.mem_append, List.mem_cons, not_or] at plain ⊢
    exact ⟨plain.1, by decide, by decide, by decide, by decide, plain.2.2.2.2.2⟩
  have room : front.length + 4 ≤ nameSize := by
    simp only [List.length_append, List.length_cons] at short
    unfold nameSize
    omega
  unfold assembled
  rw [entries]
  simp only [bind, Except.bind]
  rw [iswbmp_first first plain room]
  dsimp only [Option.map]
  rw [takeWhile_string plain']

theorem recover_name {dbr : Dbr} {found : List Entry} {name : List Nat} (done : recover img dbr ptr name = .ok found) :
    ∀ e ∈ found, e.name = name.takeWhile (· ≠ 0) := by
  have none : ∀ {found : List Entry}, (.ok [] : Except Fault (List Entry)) = .ok found →
      ∀ e ∈ found, e.name = name.takeWhile (· ≠ 0) := by
    intro found same e mem
    rw [← Except.ok.inj same] at mem
    cases mem
  unfold recover at done
  obtain ⟨size, -, done⟩ := bind_ok done
  split at done
  · exact none done
  · obtain ⟨lowCluster, -, done⟩ := bind_ok done
    split at done
    · exact none done
    · obtain ⟨highCluster, -, done⟩ := bind_ok done
      obtain ⟨valid, -, done⟩ := bind_ok done
      split at done
      · obtain ⟨content, -, done⟩ := bind_ok done
        intro e mem
        rw [← Except.ok.inj done] at mem
        rw [List.mem_singleton.mp mem]
      · exact none done

/-- What is recorded for an entry carries the name that was put together. -/
theorem entry_name {dbr : Dbr} {found : List Entry} (done : entry img dbr ptr = .ok found) :
    ∀ e ∈ found, assembled img ptr = .ok (some e.name) := by
  intro e mem
  unfold entry at done
  obtain ⟨bmp, -, done⟩ := bind_ok done
  split at done
  · obtain ⟨name, entries, done⟩ := bind_ok done
    obtain ⟨result, named, done⟩ := bind_ok done
    cases result with
    | none =>
      rw [← Except.ok.inj done] at mem
      cases mem
    | some name' =>
      unfold assembled
      rw [entries, recover_name done e mem]
      simp only [bind, Except.bind]
      rw [named]
      rfl
  · rw [← Except.ok.inj done] at mem
    cases mem

/-- **The name of a picture is put together and recorded as it is, if and only if `bmp` stands behind its
first dot.** -/
theorem assembled_name (plain : 0 ∉ u) (ends : dotBmp <:+ u) (short : u.length ≤ 117) (encoded : Encoded img ptr u) :
    ∃ name, assembled img ptr = .ok (some name) ∧
      (∀ dbr found, entry img dbr ptr = .ok found → ∀ e ∈ found, e.name = name) ∧
      (name = u ↔ dotBmp <+: u.dropWhile (· ≠ 46)) := by
  obtain ⟨front, a, b, c, back, first, split, behind⟩ := first_dot ends
  rw [behind]
  subst split
  have name := assembled_eq encoded first plain short
  refine ⟨_, name, ?_, ?_⟩
  · intro dbr found done e mem
    have recorded := entry_name done e mem
    exact Option.some.inj (Except.ok.inj (recorded.symm.trans name))
  · simp only [List.append_cancel_left_eq, List.cons.injEq, and_true, true_and, dotBmp, List.cons_prefix_cons,
      List.nil_prefix]

/-- A directory with the name `u` of one entry, and a picture of six bytes in the cluster behind it. -/
def album (u : List Nat) : List Byte :=
  List.replicate 32 0 ++ (longDir (fun _ => 65) 0 ((u.length + 12) / 13) (longFill u) ++
    (List.replicate 8 65 ++ [66, 77, 80] ++ List.replicate 15 0 ++ [5, 0, 6, 0, 0, 0] ++ [66, 77, 6, 0, 0, 0] ++
      List.replicate 26 0))

def albumDbr : Dbr := ⟨32, 1, 0, 0, 0⟩

def twoDots : List Nat := [97, 46, 116, 120, 116, 46, 98, 109, 112]

theorem album_twoDots : Encoded (album twoDots) 64 twoDots :=
  encoded_longDir (fun _ => 65) 0 (by decide) _ ⟨by decide, by decide⟩


theorem recover_picture {dbr : Dbr} {size low high : Nat} {content : List Byte} (name : List Nat)
    (sized : read img (ptr + 28) 4 = .ok size) (placed : read img (ptr + 26) 2 = .ok low)
    (placed' : read img (ptr + 20) 2 = .ok high) (kept : size ≠ 0 ∧ low ≠ 0)
    (valid : validbmp img (dbr.data + dbr.addr high low) size = .ok true)
    (file : hashed img (dbr.data + dbr.addr high low) = .ok content) :
    recover img dbr ptr name = .ok [⟨name.takeWhile (· ≠ 0), content, size⟩] := by
  unfold recover
  refine bind_ok_iff.mpr ⟨size, sized, ?_⟩
  rw [if_neg kept.1]
  refine bind_ok_iff.mpr ⟨low, placed, ?_⟩
  rw [if_neg kept.2]
  refine bind_ok_iff.mpr ⟨high, placed', bind_ok_iff.mpr ⟨true, valid, ?_⟩⟩
  rw [if_pos rfl]
  exact bind_ok_iff.mpr ⟨content, file, rfl⟩

/-- It is recorded as `a.bmp.bmp`. -/
theorem assembled_name_counterexample : 0 ∉ twoDots ∧ dotBmp <:+ twoDots ∧ twoDots.length ≤ 117 ∧
    Encoded (album twoDots) 64 twoDots ∧
    assembled (album twoDots) 64 = .ok (some [97, 46, 98, 109, 112, 46, 98, 109, 112]) ∧
    entry (album twoDots) albumDbr 64 =
      .ok [⟨[97, 46, 98, 109, 112, 46, 98, 109, 112], [66, 77, 6, 0, 0, 0], 6⟩] := by
  have encoded := album_twoDots
  refine ⟨by decide, by decide, by decide, encoded, ?_, ?_⟩
  · exact @assembled_eq _ _ [97] [46, 98, 109, 112] 116 120 116 encoded (by decide) (by decide) (by decide)
  · have bmp : isbmp (album twoDots) (64 + 8) = .ok true := by decide +kernel
    have place : (albumDbr.data + albumDbr.addr 0 5 : Int) = 96 := by decide
    have valid : validbmp (album twoDots) (albumDbr.data + albumDbr.addr 0 5) 6 = .ok true := by
      rw [place]
      decide +kernel
    have file : hashed (album twoDots) (albumDbr.data + albumDbr.addr 0 5) = .ok [66, 77, 6, 0, 0, 0] := by
      rw [place]
      decide +kernel
    obtain ⟨rest, entries⟩ := longEntries_encoded encoded (by decide)
    have named := @iswbmp_first [97] [46, 98, 109, 112] rest 116 120 116 (by decide) (by decide) (by decide)
    unfold entry
    refine bind_ok_iff.mpr ⟨true, bmp, ?_⟩
    rw [if_pos rfl]
    refine bind_ok_iff.mpr ⟨_, entries, bind_ok_iff.mpr ⟨_, named, ?_⟩⟩
    refine (recover_picture _ (by decide +kernel) (by decide +kernel) (by decide +kernel)
      (by decide) valid file).trans ?_
    rw [takeWhile_string (u := [97] ++ [46, 98, 109, 112, 46, 98, 109, 112]) (by decide)]
    rfl

theorem assembled_name_oneDot :
    ∃ name, assembled (album (97 :: dotBmp)) 64 = .ok (some name) ∧ name = 97 :: dotBmp := by
  have encoded : Encoded (album (97 :: dotBmp)) 64 (97 :: dotBmp) :=
    encoded_longDir (fun _ => 65) 0 (by decide) _ ⟨by decide, by decide⟩
  obtain ⟨name, done, -, same⟩ := assembled_name (by decide) (by decide) (by decide) encoded
  exact ⟨name, done, same.mpr (by decide)⟩

end OsLabs.Frecov

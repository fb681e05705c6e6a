import Mathlib.Data.List.Basic

/-!
# Drawing trees

A tree is drawn as a block of lines: the block of its first child stands behind its label,
and the blocks of the others below that one, each behind a connection to the label.
-/

namespace OsLabs

inductive Branch (α : Type) where
  | node (label : List α) (children : List (Branch α))

/-- The characters between a label and its children. -/
structure Brush (α : Type) where
  blank : α
  dash : α
  fork : α
  bar : α
  corner : α

variable {α : Type}

/-- A block behind `first`, with `rest` in front of its other lines. -/
def beside (first rest : List α) : List (List α) → List (List α)
  | [] => []
  | line :: lines => (first ++ line) :: lines.map (rest ++ ·)

def unlines (newline : α) (block : List (List α)) : List α := block.flatMap fun line => line ++ [newline]

/-- Behind `w` characters, each line ends within `n`. -/
def FitsBehind (w n : Nat) (block : List (List α)) : Prop := ∀ line ∈ block, w + line.length ≤ n

namespace Brush

variable (b : Brush α)

/-- The blocks of the children behind the first one. -/
def below (margin : List α) : List (List (List α)) → List (List α)
  | [] => []
  | [block] => beside (margin ++ [b.corner, b.dash]) (margin ++ [b.blank, b.blank]) block
  | block :: blocks => beside (margin ++ [b.bar, b.dash]) (margin ++ [b.bar, b.blank]) block ++ below margin blocks

/-- The width of a label, and the column behind it. -/
def margin (label : List α) : List α := List.replicate (label.length + 1) b.blank

def stem (label : List α) : List (List (List α)) → List (List α)
  | [] => [label]
  | [block] => beside (label ++ [b.dash, b.dash, b.dash]) (b.margin label ++ [b.blank, b.blank]) block
  | block :: blocks => beside (label ++ [b.dash, b.fork, b.dash]) (b.margin label ++ [b.bar, b.blank]) block ++
      b.below (b.margin label) blocks

/-- The blocks of the children, when the first one goes on with the line of the label. -/
def row (margin : List α) : List (List (List α)) → List (List α)
  | [] => []
  | [block] => beside [b.dash] (margin ++ [b.blank, b.blank]) block
  | block :: blocks => beside [b.dash] (margin ++ [b.bar, b.blank]) block ++ b.below margin blocks

/-- What is behind a label in its line, up to that dash. -/
def knot (newline : α) : Nat → List α
  | 0 => [newline]
  | 1 => [b.dash, b.dash]
  | _ => [b.dash, b.fork]

mutual

def lines : Branch α → List (List α)
  | .node label children => b.stem label (blocks children)

def blocks : List (Branch α) → List (List (List α))
  | [] => []
  | child :: children => lines child :: blocks children

end

end Brush

variable {b : Brush α} {first rest label margin line : List α} {block blocks₁ : List (List α)}
  {blocks : List (List (List α))}
  {t : Branch α} {children : List (Branch α)} {w n : Nat} {newline : α}

/-! ### Blocks -/

@[simp] theorem length_margin : (b.margin label).length = label.length + 1 := List.length_replicate

theorem beside_ne_nil (some : block ≠ []) : beside first rest block ≠ [] := by
  cases block with
  | nil => exact absurd rfl some
  | cons line lines => simp [beside]

theorem beside_nil : beside [] [] block = block := by
  cases block with
  | nil => rfl
  | cons line lines => simp [beside]

theorem beside_append (some : block ≠ []) : beside first rest (block ++ blocks₁) = beside first rest block ++
    blocks₁.map (rest ++ ·) := by
  cases block with
  | nil => exact absurd rfl some
  | cons line lines => simp [beside]

theorem beside_beside {first' rest' : List α} :
    beside first rest (beside first' rest' block) = beside (first ++ first') (rest ++ rest') block := by
  cases block with
  | nil => rfl
  | cons line lines => simp [beside]

theorem map_beside {front first' rest' : List α} :
    (beside first' rest' block).map (front ++ ·) = beside (front ++ first') (front ++ rest') block := by
  cases block with
  | nil => rfl
  | cons line lines => simp [beside]

theorem unlines_append : unlines newline (block ++ block₁) = unlines newline block ++ unlines newline block₁ :=
  List.flatMap_append

/-- A text in front of a block is one in front of its first line. -/
theorem append_unlines_beside (some : block ≠ []) :
    label ++ unlines newline (beside first rest block) = unlines newline (beside (label ++ first) rest block) := by
  cases block with
  | nil => exact absurd rfl some
  | cons line lines => simp [beside, unlines]

theorem fitsBehind_beside (same : first.length = rest.length) :
    FitsBehind w n (beside first rest block) ↔ FitsBehind (w + first.length) n block := by
  cases block with
  | nil => simp [beside, FitsBehind]
  | cons line lines => simp [beside, FitsBehind, same, Nat.add_assoc]

theorem fitsBehind_append : FitsBehind w n (block ++ block₁) ↔ FitsBehind w n block ∧ FitsBehind w n block₁ :=
  List.forall_mem_append

namespace Brush

theorem map_below {front : List α} : (b.below margin blocks).map (front ++ ·) = b.below (front ++ margin) blocks := by
  induction blocks with
  | nil => rfl
  | cons block blocks ih =>
    cases blocks with
    | nil => simp only [below, map_beside, List.append_assoc]
    | cons next blocks => simp only [below, List.map_append, map_beside, ih, List.append_assoc]

theorem fitsBehind_below : FitsBehind w n (b.below margin blocks) ↔
    ∀ block ∈ blocks, FitsBehind (w + margin.length + 2) n block := by
  induction blocks with
  | nil => simp [below, FitsBehind]
  | cons block blocks ih =>
    have edge (c d c' d' : α) : FitsBehind w n (beside (margin ++ [c, d]) (margin ++ [c', d']) block) ↔
        FitsBehind (w + margin.length + 2) n block := by
      rw [fitsBehind_beside (by simp)]
      simp [Nat.add_assoc]
    cases blocks with
    | nil => simpa [below] using edge _ _ _ _
    | cons next blocks =>
      rw [below, fitsBehind_append, edge, ih]
      · exact (List.forall_mem_cons (p := FitsBehind (w + margin.length + 2) n)).symm
      · exact List.cons_ne_nil next blocks

/-- A block behind two texts: the first child continues the line, and the others are below. -/
theorem beside_stem (some : block ≠ []) : beside first rest (b.stem label (block :: blocks)) =
    if blocks = [] then
      beside (first ++ label ++ [b.dash, b.dash, b.dash]) (rest ++ b.margin label ++ [b.blank, b.blank]) block
    else beside (first ++ label ++ [b.dash, b.fork, b.dash]) (rest ++ b.margin label ++ [b.bar, b.blank]) block ++
      b.below (rest ++ b.margin label) blocks := by
  cases blocks with
  | nil => simp only [stem, beside_beside, if_true, List.append_assoc]
  | cons next blocks =>
    rw [stem, beside_append (beside_ne_nil some), beside_beside, map_below, if_neg (List.cons_ne_nil next blocks)]
    · simp only [List.append_assoc]
    · exact List.cons_ne_nil next blocks

theorem fitsBehind_stem (each : ∀ block ∈ blocks, block ≠ []) : FitsBehind w n (b.stem label blocks) ↔
    w + label.length ≤ n ∧ ∀ block ∈ blocks, FitsBehind (w + label.length + 3) n block := by
  cases blocks with
  | nil => simp [stem, FitsBehind]
  | cons block blocks =>
    obtain ⟨some, -⟩ := List.forall_mem_cons.mp each
    have edge (c d c' d' : α) : FitsBehind w n (beside (label ++ [b.dash, c, d]) (b.margin label ++ [c', d']) block) ↔
        FitsBehind (w + label.length + 3) n block := by
      rw [fitsBehind_beside (by simp)]
      simp [Nat.add_assoc]
    have wide (fits : FitsBehind (w + label.length + 3) n block) : w + label.length ≤ n := by
      obtain ⟨line, mem⟩ := List.exists_mem_of_ne_nil block some
      have := fits line mem
      omega
    have whole : FitsBehind w n (b.stem label (block :: blocks)) ↔
        ∀ x ∈ block :: blocks, FitsBehind (w + label.length + 3) n x := by
      cases blocks with
      | nil => simpa [stem] using edge b.dash b.dash b.blank b.blank
      | cons next blocks =>
        rw [stem, fitsBehind_append, edge, fitsBehind_below, length_margin]
        · exact (List.forall_mem_cons (p := FitsBehind (w + label.length + 3) n)).symm
        · exact List.cons_ne_nil next blocks
    rw [whole]
    exact ⟨fun h => ⟨wide (h block List.mem_cons_self), h⟩, And.right⟩

/-- A label with its children, line after line. -/
theorem unlines_stem (each : ∀ block ∈ blocks, block ≠ []) : unlines newline (beside first rest (b.stem label blocks)) =
    first ++ label ++ b.knot newline blocks.length ++ unlines newline (b.row (rest ++ b.margin label) blocks) := by
  cases blocks with
  | nil => simp [stem, beside, unlines, knot, row]
  | cons block blocks =>
    obtain ⟨some, -⟩ := List.forall_mem_cons.mp each
    rw [beside_stem some]
    cases blocks with
    | nil =>
      rw [if_pos rfl, row, append_unlines_beside some]
      simp [knot]
    | cons next blocks =>
      have more := List.cons_ne_nil next blocks
      rw [if_neg more, row, unlines_append, unlines_append, ← List.append_assoc, append_unlines_beside some]
      · simp [knot]
      · exact more

/-! ### Trees -/

theorem blocks_eq : b.blocks children = children.map b.lines := by
  induction children with
  | nil => rw [blocks, List.map_nil]
  | cons child children ih => rw [blocks, ih, List.map_cons]

theorem lines_node : b.lines (.node label children) = b.stem label (children.map b.lines) := by
  rw [lines, blocks_eq]

theorem stem_ne_nil (each : ∀ block ∈ blocks, block ≠ []) : b.stem label blocks ≠ [] := by
  cases blocks with
  | nil => simp [stem]
  | cons block blocks =>
    obtain ⟨some, -⟩ := List.forall_mem_cons.mp each
    cases blocks with
    | nil => simpa [stem] using beside_ne_nil some
    | cons next blocks => simp [stem, beside_ne_nil some]

end Brush

end OsLabs

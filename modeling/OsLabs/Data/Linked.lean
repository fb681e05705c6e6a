import Mathlib.Data.List.Chain

/-!
# Doubly linked lists

A list whose elements are linked both ways by `nxt` and `prv`, and the two
updates of such a list: inserting a node after another one and unlinking one.
-/

namespace OsLabs

variable {α : Type*} {nxt prv nxt' prv' : α → α} {l l₁ l₂ : List α} {a b c : α}

/-- Following `nxt` visits the elements of the list in order, and `prv` inverts it. -/
def Linked (nxt prv : α → α) (l : List α) : Prop := l.IsChain fun x y => nxt x = y ∧ prv y = x

namespace Linked

theorem split : Linked nxt prv (l₁ ++ a :: b :: l₂) ↔
    Linked nxt prv (l₁ ++ [a]) ∧ (nxt a = b ∧ prv b = a) ∧ Linked nxt prv (b :: l₂) :=
  List.isChain_append_cons_cons

/-- Only the successors of all but the last and the predecessors of all but the first matter. -/
theorem congr (h : Linked nxt prv l) (hn : ∀ x ∈ l.dropLast, nxt' x = nxt x)
    (hp : ∀ x ∈ l.tail, prv' x = prv x) : Linked nxt' prv' l := by
  induction l with
  | nil => exact .nil
  | cons x l ih =>
    cases l with
    | nil => exact .singleton x
    | cons y l =>
      have ⟨hxy, hl⟩ := List.isChain_cons_cons.mp h
      refine List.isChain_cons_cons.mpr ⟨?_, ?_⟩
      · rw [hn x (by simp), hp y (by simp)]; exact hxy
      · exact ih hl (fun z hz => hn z (by simp [hz])) (fun z hz => hp z (by simp at hz; simp [hz]))

theorem congr_before (h : Linked nxt prv (l₁ ++ [a])) (hn : ∀ x ∈ l₁, nxt' x = nxt x)
    (hp : ∀ x ∈ l₁ ++ [a], prv' x = prv x) : Linked nxt' prv' (l₁ ++ [a]) :=
  h.congr (fun x hx => hn x (by simpa using hx)) (fun x hx => hp x (List.mem_of_mem_tail hx))

theorem congr_after (h : Linked nxt prv (b :: l₂)) (hn : ∀ x ∈ b :: l₂, nxt' x = nxt x)
    (hp : ∀ x ∈ l₂, prv' x = prv x) : Linked nxt' prv' (b :: l₂) :=
  h.congr (fun x hx => hn x ((List.dropLast_sublist _).subset hx)) (fun x hx => hp x (by simpa using hx))

/-- The node `c` is put between the neighbours `a` and `b`. -/
theorem insert (h : Linked nxt prv (l₁ ++ a :: b :: l₂)) (nodup : (l₁ ++ a :: b :: l₂).Nodup)
    (hac : nxt' a = c) (hcb : nxt' c = b) (hca : prv' c = a) (hbc : prv' b = c)
    (hn : ∀ x ∈ l₁ ++ a :: b :: l₂, x ≠ a → nxt' x = nxt x)
    (hp : ∀ x ∈ l₁ ++ a :: b :: l₂, x ≠ b → prv' x = prv x) :
    Linked nxt' prv' (l₁ ++ a :: c :: b :: l₂) := by
  obtain ⟨before, -, after⟩ := split.mp h
  refine split.mpr ⟨?_, ⟨hac, hca⟩, List.isChain_cons_cons.mpr ⟨⟨hcb, hbc⟩, ?_⟩⟩
  · exact before.congr_before (fun x hx => hn x (by grind) (by grind)) (fun x hx => hp x (by grind) (by grind))
  · exact after.congr_after (fun x hx => hn x (by grind) (by grind)) (fun x hx => hp x (by grind) (by grind))

/-- The node `c` is taken out from between `a` and `b`. -/
theorem unlink (h : Linked nxt prv (l₁ ++ a :: c :: b :: l₂))
    (nodup : (l₁ ++ a :: c :: b :: l₂).Nodup) (hab : nxt' a = b) (hba : prv' b = a)
    (hn : ∀ x ∈ l₁ ++ a :: b :: l₂, x ≠ a → nxt' x = nxt x)
    (hp : ∀ x ∈ l₁ ++ a :: b :: l₂, x ≠ b → prv' x = prv x) :
    Linked nxt' prv' (l₁ ++ a :: b :: l₂) := by
  obtain ⟨before, -, rest⟩ := split.mp h
  have after : Linked nxt prv (b :: l₂) := (List.isChain_cons_cons.mp rest).2
  refine split.mpr ⟨?_, ⟨hab, hba⟩, ?_⟩
  · exact before.congr_before (fun x hx => hn x (by grind) (by grind)) (fun x hx => hp x (by grind) (by grind))
  · exact after.congr_after (fun x hx => hn x (by grind) (by grind)) (fun x hx => hp x (by grind) (by grind))

/-- Where a walk starts and where it ends tell what it visits, if it visits nothing twice. -/
theorem unique (h₁ : Linked nxt prv (a :: l₁)) (h₂ : Linked nxt prv (a :: l₂)) (nodup₁ : (a :: l₁).Nodup)
    (nodup₂ : (a :: l₂).Nodup) (last₁ : (a :: l₁).getLast? = some b) (last₂ : (a :: l₂).getLast? = some b) :
    l₁ = l₂ := by
  induction l₁ generalizing a l₂ with
  | nil =>
    obtain rfl : a = b := Option.some.inj last₁
    cases l₂ with
    | nil => rfl
    | cons y l₂ =>
      rw [List.getLast?_cons_cons] at last₂
      exact absurd (List.mem_of_getLast? last₂) (List.nodup_cons.mp nodup₂).1
  | cons x l₁ ih =>
    cases l₂ with
    | nil =>
      obtain rfl : a = b := Option.some.inj last₂
      rw [List.getLast?_cons_cons] at last₁
      exact absurd (List.mem_of_getLast? last₁) (List.nodup_cons.mp nodup₁).1
    | cons y l₂ =>
      obtain ⟨⟨rfl, -⟩, rest₁⟩ := List.isChain_cons_cons.mp h₁
      obtain ⟨⟨rfl, -⟩, rest₂⟩ := List.isChain_cons_cons.mp h₂
      rw [List.getLast?_cons_cons] at last₁ last₂
      rw [ih rest₁ rest₂ (List.nodup_cons.mp nodup₁).2 (List.nodup_cons.mp nodup₂).2 last₁ last₂]

end Linked

end OsLabs

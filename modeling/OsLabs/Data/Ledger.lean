import Mathlib.Data.List.Perm.Basic
import Mathlib.Data.List.Nodup
import Mathlib.Data.Set.Basic

/-!
# Marks and holders

Who holds what is often written down twice: as a mark on every held item, and as
the lists of items that the holders keep. `Records` says that the two agree and
that no item is held twice.
-/

namespace OsLabs

variable {α : Type*} {range : Set α} {marked marked' : α → Bool} {held held' : List α} {a : α}

/-- The marked items of the range are exactly the held ones, each held once. -/
structure Records (range : Set α) (marked : α → Bool) (held : List α) : Prop where
  nodup : held.Nodup
  within : ∀ a ∈ held, a ∈ range
  marks : ∀ a ∈ range, marked a = true ↔ a ∈ held

namespace Records

theorem empty (h : ∀ a ∈ range, marked a = false) : Records range marked [] where
  nodup := .nil
  within := by simp
  marks a ha := by simp [h a ha]

theorem perm (h : Records range marked held) (p : held.Perm held') : Records range marked held' where
  nodup := p.nodup_iff.mp h.nodup
  within a ha := h.within a (p.mem_iff.mpr ha)
  marks a ha := (h.marks a ha).trans p.mem_iff

theorem congr (h : Records range marked held) (same : ∀ a ∈ range, marked' a = marked a) :
    Records range marked' held where
  nodup := h.nodup
  within := h.within
  marks a ha := by rw [same a ha]; exact h.marks a ha

theorem marked_of_mem (h : Records range marked held) (mem : a ∈ held) : marked a = true :=
  (h.marks a (h.within a mem)).mpr mem

theorem not_mem (h : Records range marked held) (free : marked a = false) : a ∉ held := by
  intro mem
  rw [h.marked_of_mem mem] at free
  exact Bool.noConfusion free

variable [DecidableEq α]

theorem acquire (h : Records range marked held) (ha : a ∈ range) (free : marked a = false)
    (set : ∀ b ∈ range, marked' b = if b = a then true else marked b) : Records range marked' (a :: held) where
  nodup := List.nodup_cons.mpr ⟨h.not_mem free, h.nodup⟩
  within := List.forall_mem_cons.mpr ⟨ha, h.within⟩
  marks b hb := by
    rw [set b hb, List.mem_cons]
    by_cases same : b = a
    · simp [same]
    · simp [same, h.marks b hb]

theorem release (h : Records range marked (a :: held))
    (clear : ∀ b ∈ range, marked' b = if b = a then false else marked b) : Records range marked' held where
  nodup := (List.nodup_cons.mp h.nodup).2
  within b hb := h.within b (List.mem_cons_of_mem _ hb)
  marks b hb := by
    have out : a ∉ held := (List.nodup_cons.mp h.nodup).1
    rw [clear b hb]
    by_cases same : b = a
    · simp [same, out]
    · simpa [same] using h.marks b hb

end Records

end OsLabs

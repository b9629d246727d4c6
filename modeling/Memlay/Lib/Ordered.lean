import Mathlib.Order.Defs.Unbundled
import Mathlib.Data.List.Basic
import Mathlib.Data.List.Pairwise

/-!
# Ordered sets as lists

A set kept in the order of a strict relation.  Two elements that the relation
does not tell apart tie, and count as the same element: an insert leaves the one
that is there, a removal takes out the one that ties.
-/

namespace Ordered

variable {α : Type*} (lt : α → α → Prop) [DecidableRel lt]

/-- Before the first element that it beats, unless one ties. -/
def insert (a : α) : List α → List α
  | [] => [a]
  | x :: xs =>
    if lt a x then a :: x :: xs
    else if lt x a then x :: insert a xs
    else x :: xs

/-- Takes out the first element that ties. -/
def remove (a : α) : List α → List α
  | [] => []
  | x :: xs => if ¬ lt a x ∧ ¬ lt x a then xs else x :: remove a xs

/-- The relation does not tell them apart. -/
def Tie (a b : α) : Prop := ¬ lt a b ∧ ¬ lt b a

variable {lt} {a x : α} {l : List α}

/-! ## Insert -/

theorem insert_cons (a x : α) (l : List α) : insert lt a (x :: l) =
    if lt a x then a :: x :: l else if lt x a then x :: insert lt a l else x :: l := rfl

/-- Nothing else comes in. -/
theorem mem_of_mem_insert (h : x ∈ insert lt a l) : x = a ∨ x ∈ l := by
  induction l with
  | nil => exact Or.inl (List.mem_singleton.1 h)
  | cons y l ih =>
    rw [insert_cons] at h
    split at h
    · exact List.mem_cons.1 h
    · split at h
      · rcases List.mem_cons.1 h with rfl | h
        · exact Or.inr (by simp)
        · exact (ih h).imp_right (List.mem_cons_of_mem y)
      · exact Or.inr h

/-- Nothing goes out. -/
theorem mem_insert_of_mem (a : α) (h : x ∈ l) : x ∈ insert lt a l := by
  induction l with
  | nil => cases h
  | cons y l ih =>
    rw [insert_cons]
    split
    · exact List.mem_cons_of_mem a h
    · split
      · rcases List.mem_cons.1 h with rfl | h
        · simp
        · exact List.mem_cons_of_mem y (ih h)
      · exact h

/-- After an insert the set has the element, or one that ties with it. -/
theorem exists_mem_insert (a : α) (l : List α) :
    a ∈ insert lt a l ∨ ∃ y ∈ l, y ∈ insert lt a l ∧ Tie lt a y := by
  induction l with
  | nil => exact Or.inl (List.mem_singleton_self a)
  | cons y l ih =>
    rw [insert_cons]
    split
    · exact Or.inl (by simp)
    · rename_i hay
      split
      · rcases ih with h | ⟨z, hz, hzi, ht⟩
        · exact Or.inl (List.mem_cons_of_mem y h)
        · exact Or.inr ⟨z, List.mem_cons_of_mem y hz, List.mem_cons_of_mem y hzi, ht⟩
      · rename_i hya
        exact Or.inr ⟨y, by simp, by simp, hay, hya⟩

/-- The list stays in order. -/
theorem pairwise_insert [IsTrans α lt] (a : α) (h : l.Pairwise lt) : (insert lt a l).Pairwise lt := by
  induction l with
  | nil => exact List.pairwise_singleton lt a
  | cons y l ih =>
    obtain ⟨hy, hl⟩ := List.pairwise_cons.1 h
    rw [insert_cons]
    split
    · rename_i hay
      refine List.pairwise_cons.2 ⟨fun z hz => ?_, h⟩
      rcases List.mem_cons.1 hz with rfl | hz
      · exact hay
      · exact IsTrans.trans _ _ _ hay (hy z hz)
    · split
      · rename_i hya
        refine List.pairwise_cons.2 ⟨fun z hz => ?_, ih hl⟩
        rcases mem_of_mem_insert hz with rfl | hz
        · exact hya
        · exact hy z hz
      · exact h

/-! ## Remove -/

theorem remove_cons (a x : α) (l : List α) : remove lt a (x :: l) =
    if ¬ lt a x ∧ ¬ lt x a then l else x :: remove lt a l := rfl

theorem remove_sublist (a : α) (l : List α) : (remove lt a l).Sublist l := by
  induction l with
  | nil => exact List.Sublist.refl _
  | cons y l ih =>
    rw [remove_cons]
    split
    · exact List.sublist_cons_self y l
    · exact ih.cons_cons y

theorem mem_remove_of_not_tie (h : x ∈ l) (ht : ¬ Tie lt a x) : x ∈ remove lt a l := by
  induction l with
  | nil => cases h
  | cons y l ih =>
    rw [remove_cons]
    split
    · rename_i hay
      rcases List.mem_cons.1 h with rfl | h
      · exact absurd hay ht
      · exact h
    · rcases List.mem_cons.1 h with rfl | h
      · simp
      · exact List.mem_cons_of_mem y (ih h)

/-- Ties stand next to nothing: in an ordered list at most one element ties with `a`. -/
theorem not_tie_of_mem_remove [IsStrictWeakOrder α lt] (h : l.Pairwise lt) (hx : x ∈ remove lt a l) :
    ¬ Tie lt a x := by
  induction l with
  | nil => cases hx
  | cons y l ih =>
    obtain ⟨hy, hl⟩ := List.pairwise_cons.1 h
    rw [remove_cons] at hx
    split at hx
    · rename_i hay
      intro hax
      have htie := IsStrictWeakOrder.incomp_trans y a x ⟨hay.2, hay.1⟩ hax
      exact htie.1 (hy x hx)
    · rename_i hay
      rcases List.mem_cons.1 hx with rfl | hx
      · exact hay
      · exact ih hl hx

/-- Of a list in order exactly the elements that tie go out. -/
theorem mem_remove_iff [IsStrictWeakOrder α lt] (h : l.Pairwise lt) :
    x ∈ remove lt a l ↔ x ∈ l ∧ ¬ Tie lt a x :=
  ⟨fun hx => ⟨(remove_sublist a l).subset hx, not_tie_of_mem_remove h hx⟩,
    fun hx => mem_remove_of_not_tie hx.1 hx.2⟩

/-- A removal keeps the order too. -/
theorem pairwise_remove (a : α) (h : l.Pairwise lt) : (remove lt a l).Pairwise lt :=
  h.sublist (remove_sublist a l)

end Ordered

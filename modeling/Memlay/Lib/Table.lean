import Mathlib.Data.List.AList
import Mathlib.Algebra.BigOperators.Group.List.Basic
import Mathlib.Algebra.Order.BigOperators.Group.List
import Mathlib.Algebra.Order.Ring.Nat

/-!
# Tables: finite maps with a running total

A table is Mathlib's `AList` at a constant family.  `values` lists the stored
values and `total w` adds up a weight over them; `total_insert` and
`total_erase` say how one map operation moves the total, which is all a hand
kept counter has to follow.
-/

/-- Finite map from `κ` to `ν`. -/
abbrev Table (κ ν : Type*) := AList fun _ : κ => ν

namespace Table

variable {κ ν : Type*}

/-- The stored values, in table order. -/
def values (m : Table κ ν) : List ν := m.entries.map (·.2)

/-- Sum of a weight over the stored values. -/
def total {M : Type*} [AddCommMonoid M] (w : ν → M) (m : Table κ ν) : M := (m.values.map w).sum

variable [DecidableEq κ]

theorem mem_values_iff {m : Table κ ν} {v : ν} : v ∈ m.values ↔ ∃ k, m.lookup k = some v := by
  unfold values
  rw [List.mem_map]
  constructor
  · rintro ⟨⟨k, v⟩, h, rfl⟩
    exact ⟨k, AList.mem_lookup_iff.2 h⟩
  · rintro ⟨k, h⟩
    exact ⟨⟨k, v⟩, AList.mem_lookup_iff.1 h, rfl⟩

variable {M : Type*} [AddCommMonoid M] (w : ν → M)

/-- Taking a stored key out takes its weight out of the total. -/
theorem total_erase {m : Table κ ν} {k : κ} {v : ν} (h : m.lookup k = some v) :
    w v + total w (m.erase k) = total w m := by
  obtain ⟨l, nd⟩ := m
  change l.dlookup k = some v at h
  show w v + (((l.kerase k).map (·.2)).map w).sum = ((l.map (·.2)).map w).sum
  clear nd
  induction l with
  | nil => simp at h
  | cons p l ih =>
    obtain ⟨k', v'⟩ := p
    by_cases hk : k = k'
    · subst hk
      rw [List.dlookup_cons_eq] at h
      cases h
      rw [@List.kerase_cons_eq κ (fun _ => ν) _ k ⟨k, v⟩ l rfl]
      simp
    · rw [@List.dlookup_cons_ne κ (fun _ => ν) _ l k ⟨k', v'⟩ hk] at h
      have := ih h
      rw [@List.kerase_cons_ne κ (fun _ => ν) _ k ⟨k', v'⟩ l hk]
      simp only [List.map_cons, List.sum_cons]
      rw [← this]
      ac_rfl

theorem total_insert_of_none {m : Table κ ν} {k : κ} (v : ν) (h : m.lookup k = none) :
    total w (m.insert k v) = w v + total w m := by
  unfold total values
  rw [AList.entries_insert_of_notMem (AList.lookup_eq_none.1 h)]
  simp

theorem total_le_total {u v : ν → Nat} {m : Table κ ν} (h : ∀ k x, m.lookup k = some x → u x ≤ v x) :
    total u m ≤ total v m := by
  refine List.sum_le_sum fun x hx => ?_
  obtain ⟨k, hk⟩ := mem_values_iff.1 hx
  exact h k x hk

/-- Overwriting swaps the old weight for the new one. -/
theorem total_insert_of_some {m : Table κ ν} {k : κ} {old : ν} (v : ν) (h : m.lookup k = some old) :
    w old + total w (m.insert k v) = w v + total w m := by
  have he := total_erase w h
  have hi : total w (m.insert k v) = w v + total w (m.erase k) := by
    unfold total values
    rw [AList.entries_insert, List.map_cons, List.map_cons, List.sum_cons]
    rfl
  rw [hi, ← he]
  ac_rfl

end Table

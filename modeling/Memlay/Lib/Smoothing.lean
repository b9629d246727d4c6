import Mathlib.Logic.Function.Iterate
import Mathlib.Tactic.Common

/-!
# An estimate that moves by a part of its error

`nudge k x r` moves `x` towards `r` by the `k`-th part of the distance, rounded towards
zero.  It never passes `r`; a distance of `k` or more shrinks with every step, and a
smaller one stays as it is.
-/

namespace Smoothing

def nudge (k x r : Nat) : Nat := if x ≤ r then x + (r - x) / k else x - (x - r) / k

/-- Closer than `k`. -/
def Near (k x r : Nat) : Prop := x < r + k ∧ r < x + k

variable {k x r : Nat}

theorem nudge_of_le (h : x ≤ r) : x ≤ nudge k x r ∧ nudge k x r ≤ r := by
  have hle := Nat.div_le_self (r - x) k
  unfold nudge
  rw [if_pos h]
  generalize (r - x) / k = q at hle
  omega

theorem nudge_of_ge (h : r ≤ x) : r ≤ nudge k x r ∧ nudge k x r ≤ x := by
  have hle := Nat.div_le_self (x - r) k
  unfold nudge
  split
  · have hzero : r - x = 0 := by omega
    rw [hzero, Nat.zero_div]
    omega
  · generalize (x - r) / k = q at hle
    omega

/-- Between the two, whichever is larger. -/
theorem nudge_mem {lo hi : Nat} (hx : lo ≤ x ∧ x ≤ hi) (hr : lo ≤ r ∧ r ≤ hi) :
    lo ≤ nudge k x r ∧ nudge k x r ≤ hi := by
  rcases Nat.le_total x r with h | h
  · have := nudge_of_le (k := k) h
    omega
  · have := nudge_of_ge (k := k) h
    omega

/-- One step takes at least one off a distance that is not small. -/
theorem nudge_closer (hk : 0 < k) {n : Nat} (h : x < r + k + (n + 1) ∧ r < x + k + (n + 1)) :
    nudge k x r < r + k + n ∧ r < nudge k x r + k + n := by
  have hstep : ∀ d : Nat, d / k ≤ d ∧ (k ≤ d → 0 < d / k) := fun d =>
    ⟨Nat.div_le_self d k, fun hkd => Nat.div_pos hkd hk⟩
  unfold nudge
  split
  · obtain ⟨hle, hpos⟩ := hstep (r - x)
    generalize (r - x) / k = q at hle hpos
    by_cases hfar : k ≤ r - x
    · have := hpos hfar
      omega
    · omega
  · obtain ⟨hle, hpos⟩ := hstep (x - r)
    generalize (x - r) / k = q at hle hpos
    by_cases hfar : k ≤ x - r
    · have := hpos hfar
      omega
    · omega

/-- After as many steps as the distance is too large, the estimate is near, and stays so. -/
theorem near_iterate (hk : 0 < k) {n : Nat} (h : x < r + k + n ∧ r < x + k + n) :
    Near k ((fun x => nudge k x r)^[n] x) r := by
  induction n generalizing x with
  | zero => exact h
  | succ n ih =>
    rw [Function.iterate_succ_apply]
    exact ih (nudge_closer hk h)

end Smoothing

import Memlay.Lib.Machine
import Mathlib.Algebra.BigOperators.Group.List.Basic

/-!
# Interleaved threads over a shared state

A pool is a shared state and a list of threads, each in a local state `π`.
`move i s p` is the next atomic step of thread `i` (`none`: finished, or
blocked).  An action starts a new thread or lets one thread take one step; a run
of the pool is one interleaving, with any number of threads.
-/

/-- Shared state and the local state of each thread. -/
structure Pool (σ π : Type*) where
  shared : σ
  threads : List π

namespace Pool

/-- One action of the scheduler. -/
inductive Act (κ : Type*) where
  | call (c : κ)
  | step (i : Nat)
deriving DecidableEq

variable {σ π κ : Type*} (start : κ → π) (move : Nat → σ → π → Option (σ × π))

def step (P : Pool σ π) : Act κ → Option (Pool σ π)
  | .call c => some ⟨P.shared, P.threads ++ [start c]⟩
  | .step i =>
    match P.threads[i]? with
    | none => none
    | some p =>
      match move i P.shared p with
      | none => none
      | some (s, p') => some ⟨s, P.threads.set i p'⟩

variable {start move}

/-- Everything one action can do. -/
theorem step_cases {P Q : Pool σ π} {a : Act κ} (h : step start move P a = some Q) :
    (∃ c, a = .call c ∧ Q = ⟨P.shared, P.threads ++ [start c]⟩) ∨
    ∃ i p s p', a = .step i ∧ P.threads[i]? = some p ∧ move i P.shared p = some (s, p') ∧
      Q = ⟨s, P.threads.set i p'⟩ := by
  cases a with
  | call c =>
    cases h
    exact Or.inl ⟨c, rfl, rfl⟩
  | step i =>
    right
    unfold step at h
    simp only at h
    split at h
    · cases h
    · rename_i p hp
      split at h
      · cases h
      · rename_i s p' hm
        cases h
        exact ⟨i, p, s, p', rfl, hp, hm, rfl⟩

/-- Thread `j` after thread `i` moved to `p'`. -/
theorem get_set {l : List π} {i j : Nat} {p p' q : π} (hi : l[i]? = some p)
    (h : (l.set i p')[j]? = some q) : (j = i ∧ q = p') ∨ (j ≠ i ∧ l[j]? = some q) := by
  rw [List.getElem?_set] at h
  by_cases hij : i = j
  · subst hij
    obtain ⟨hlt, -⟩ := List.getElem?_eq_some_iff.1 hi
    rw [if_pos rfl, if_pos hlt] at h
    exact Or.inl ⟨rfl, (Option.some.inj h).symm⟩
  · rw [if_neg hij] at h
    exact Or.inr ⟨fun he => hij he.symm, h⟩

theorem get_set_self {l : List π} {i : Nat} {p : π} (p' : π) (hi : l[i]? = some p) :
    (l.set i p')[i]? = some p' := by
  obtain ⟨hlt, -⟩ := List.getElem?_eq_some_iff.1 hi
  rw [List.getElem?_set, if_pos rfl, if_pos hlt]

theorem get_set_ne {l : List π} {i j : Nat} (p' : π) (h : j ≠ i) : (l.set i p')[j]? = l[j]? := by
  rw [List.getElem?_set, if_neg (fun he => h he.symm)]

theorem mem_set_self {l : List π} {i : Nat} {p : π} (p' : π) (hi : l[i]? = some p) : p' ∈ l.set i p' :=
  List.mem_of_getElem? (get_set_self p' hi)

/-- What some thread has, thread `i` had before it moved, or some thread has after. -/
theorem exists_set {R : π → Prop} {l : List π} {i : Nat} {p : π} (p' : π) (hi : l[i]? = some p)
    (h : ∃ q ∈ l, R q) : R p ∨ ∃ q ∈ l.set i p', R q := by
  obtain ⟨q, hq, hR⟩ := h
  obtain ⟨j, hj⟩ := List.mem_iff_getElem?.1 hq
  by_cases hij : j = i
  · subst hij
    rw [hi] at hj
    cases hj
    exact Or.inl hR
  · exact Or.inr ⟨q, List.mem_of_getElem? ((get_set_ne p' hij).trans hj), hR⟩

/-- Thread `j` after a new thread was started. -/
theorem get_concat {l : List π} {j : Nat} {p q : π} (h : (l ++ [p])[j]? = some q) :
    l[j]? = some q ∨ (j = l.length ∧ q = p) := by
  rcases Nat.lt_trichotomy j l.length with hj | hj | hj
  · left
    rwa [List.getElem?_append_left hj] at h
  · right
    subst hj
    simp at h
    exact ⟨rfl, h.symm⟩
  · rw [List.getElem?_eq_none (by simp; omega)] at h
    cases h

/-- A sum over the threads follows the thread that moved. -/
theorem sum_set {M : Type*} [AddCommMonoid M] (f : π → M) {l : List π} {i : Nat} {p : π} (p' : π)
    (h : l[i]? = some p) : f p + ((l.set i p').map f).sum = f p' + (l.map f).sum := by
  induction l generalizing i with
  | nil => simp at h
  | cons q l ih =>
    cases i with
    | zero =>
      simp only [List.getElem?_cons_zero, Option.some.injEq] at h
      subst h
      simp only [List.set_cons_zero, List.map_cons, List.sum_cons]
      ac_rfl
    | succ i =>
      have := ih (by simpa using h)
      simp only [List.set_cons_succ, List.map_cons, List.sum_cons]
      calc f p + (f q + ((l.set i p').map f).sum) = f q + (f p + ((l.set i p').map f).sum) := by ac_rfl
        _ = f q + (f p' + (l.map f).sum) := by rw [this]
        _ = f p' + (f q + (l.map f).sum) := by ac_rfl

end Pool

import Mathlib.Algebra.Ring.Nat
import Mathlib.Data.Finset.Max
import Memlay.Lib.Pool

/-!
# Locks taken in order

Tasks that take and release locks, each task its own list of actions.  A lock is taken
shared or exclusive; two tasks may have it together only if both have it shared.  A task
that waits for a lock exclusively may make the ones wait that come for it shared, so a
task is `granted` its next action only where nobody waits ahead of it in this way.

Every lock has a rank, or an owner: the one task that ever takes it.  A list of actions
is `Ordered` if a lock is taken only while all ranked locks that are held rank below it,
none is taken twice, and all are released at the end.

    exists_granted     Ordered tasks, not all at their end  →  one is granted its action
    exists_finish      and so they can all come to their ends, by granted actions only
    length_of_run      in as many actions as there are, however they are interleaved

`Fits` is the rule set for showing lists ordered piece by piece: a piece is told which
locks it may use, and fits wherever these may be taken.
-/

namespace LockOrder

inductive Mode where
  | shared
  | exclusive
deriving DecidableEq

inductive Act (L : Type*) where
  | acquire (l : L) (m : Mode)
  | release (l : L)
deriving DecidableEq

structure Task (τ L : Type*) where
  name : τ
  held : List (L × Mode)
  todo : List (Act L)
deriving DecidableEq

/-- A new task begins, or one takes its next action. -/
inductive Turn (τ L : Type*) where
  | start (name : τ) (todo : List (Act L))
  | step (i : Nat)
deriving DecidableEq

/-- Hold a lock over a piece of the list. -/
def hold {L : Type*} (l : L) (m : Mode) (body : List (Act L)) : List (Act L) :=
  .acquire l m :: (body ++ [.release l])

/-- From one lock to the next, the next one taken before the last is released. -/
def handOver {L : Type*} (m : Mode) : List L → List (Act L)
  | [] => []
  | [l] => [.acquire l m, .release l]
  | l :: k :: ls => .acquire l m :: go l k ls
where
  go (l k : L) : List L → List (Act L)
    | [] => [.acquire k m, .release l, .release k]
    | j :: ls => .acquire k m :: .release l :: go k j ls

section
variable {τ L : Type*} [DecidableEq L]

def excludes (m m' : Mode) : Bool := decide (m = .exclusive) || decide (m' = .exclusive)

/-- No task has the lock in a mode that excludes `m`. -/
def free (P : List (Task τ L)) (l : L) (m : Mode) : Bool :=
  P.all fun t => t.held.all fun p => !(decide (p.1 = l) && excludes m p.2)

def Task.waitsExclusive (t : Task τ L) (l : L) : Bool :=
  match t.todo with
  | .acquire k .exclusive :: _ => decide (k = l)
  | _ => false

/-- The next action of the task is possible, and nobody waits ahead of it. -/
def granted (P : List (Task τ L)) (t : Task τ L) : Bool :=
  match t.todo with
  | [] => false
  | .acquire l m :: _ => free P l m && (decide (m = .exclusive) || !P.any fun u => u.waitsExclusive l)
  | .release _ :: _ => true

/-- The next action, where it is possible. -/
def Task.advance (P : List (Task τ L)) (t : Task τ L) : Option (Task τ L) :=
  match t.todo with
  | [] => none
  | .acquire l m :: todo => if free P l m then some ⟨t.name, (l, m) :: t.held, todo⟩ else none
  | .release l :: todo => some ⟨t.name, t.held.eraseP fun p => decide (p.1 = l), todo⟩

/-- Names are given once. -/
def step [DecidableEq τ] (P : List (Task τ L)) : Turn τ L → Option (List (Task τ L))
  | .start name todo => if name ∈ P.map Task.name then none else some (P ++ [⟨name, [], todo⟩])
  | .step i => P[i]?.bind fun t => (t.advance P).map fun t' => P.set i t'

/-- How many actions are left. -/
def remaining (P : List (Task τ L)) : Nat := (P.map fun t => t.todo.length).sum

end

section
variable {τ L R : Type*} [DecidableEq L] [LinearOrder R] (rank : L → R) (owner : L → Option τ)

/-- The task may take the lock, with these locks held. -/
def Clear (name : τ) (held : List L) (l : L) : Prop :=
  l ∉ held ∧ (owner l = some name ∨ owner l = none ∧ ∀ k ∈ held, owner k = none → rank k < rank l)

def Ordered (name : τ) : List L → List (Act L) → Prop
  | held, [] => held = []
  | held, .acquire l _ :: todo => Clear rank owner name held l ∧ Ordered name (l :: held) todo
  | held, .release l :: todo => l ∈ held ∧ Ordered name (held.erase l) todo

/-- What holds of the tasks at every time. -/
structure InOrder (P : List (Task τ L)) : Prop where
  ordered : ∀ t ∈ P, Ordered rank owner t.name (t.held.map Prod.fst) t.todo
  owned : ∀ t ∈ P, ∀ l ∈ t.held.map Prod.fst, owner l = none ∨ owner l = some t.name
  names : (P.map Task.name).Nodup

/-- A task that begins has an ordered list. -/
def StartsOrdered (_ : List (Task τ L)) : Turn τ L → Prop
  | .start name todo => Ordered rank owner name [] todo
  | .step _ => True

end

/-! ## What one action does -/

section
variable {τ L R : Type*} [DecidableEq L] [LinearOrder R] {rank : L → R} {owner : L → Option τ}

theorem free_iff {P : List (Task τ L)} {l : L} {m : Mode} :
    free P l m = true ↔ ∀ t ∈ P, ∀ p ∈ t.held, p.1 = l → excludes m p.2 = false := by
  unfold free
  simp only [List.all_eq_true, Bool.not_eq_true', Bool.and_eq_false_imp, decide_eq_true_eq]

theorem map_eraseP (held : List (L × Mode)) (l : L) :
    (held.eraseP fun p => decide (p.1 = l)).map Prod.fst = (held.map Prod.fst).erase l := by
  induction held with
  | nil => rfl
  | cons p held ih =>
    by_cases hp : p.1 = l
    · rw [List.eraseP_cons_of_pos (by simpa using hp), List.map_cons, hp, List.erase_cons_head]
    · rw [List.eraseP_cons_of_neg (by simpa using hp), List.map_cons, List.map_cons, ih,
        List.erase_cons_tail (by simpa using hp)]

/-- The next action keeps the name, uses up one action and keeps the order. -/
theorem advance_ordered {P : List (Task τ L)} {t t' : Task τ L} (h : t.advance P = some t')
    (ho : Ordered rank owner t.name (t.held.map Prod.fst) t.todo)
    (hown : ∀ l ∈ t.held.map Prod.fst, owner l = none ∨ owner l = some t.name) :
    t'.name = t.name ∧ t'.todo.length + 1 = t.todo.length ∧
      Ordered rank owner t'.name (t'.held.map Prod.fst) t'.todo ∧
      ∀ l ∈ t'.held.map Prod.fst, owner l = none ∨ owner l = some t'.name := by
  obtain ⟨name, held, todo⟩ := t
  cases todo with
  | nil => cases h
  | cons a todo =>
    cases a with
    | acquire l m =>
      simp only [Task.advance] at h
      split at h
      · cases h
        obtain ⟨hclear, hrest⟩ := ho
        refine ⟨rfl, rfl, hrest, fun k hk => ?_⟩
        rcases List.mem_cons.1 hk with rfl | hk
        · exact hclear.2.elim Or.inr fun hnone => Or.inl hnone.1
        · exact hown k hk
      · cases h
    | release l =>
      cases h
      obtain ⟨-, hrest⟩ := ho
      refine ⟨rfl, rfl, ?_, fun k hk => ?_⟩
      · show Ordered rank owner name ((held.eraseP _).map Prod.fst) todo
        rw [map_eraseP]
        exact hrest
      · have hk' : k ∈ (held.eraseP fun p => decide (p.1 = l)).map Prod.fst := hk
        rw [map_eraseP] at hk'
        exact hown k (List.mem_of_mem_erase hk')

theorem inOrder_nil : InOrder rank owner ([] : List (Task τ L)) :=
  ⟨fun _ h => (List.not_mem_nil h).elim, fun _ h => (List.not_mem_nil h).elim, List.nodup_nil⟩

theorem InOrder.step [DecidableEq τ] {P Q : List (Task τ L)} {a : Turn τ L} (h : InOrder rank owner P)
    (hs : step P a = some Q) (hc : StartsOrdered rank owner P a) : InOrder rank owner Q := by
  cases a with
  | start name todo =>
    simp only [LockOrder.step] at hs
    split at hs
    · cases hs
    · rename_i hnew
      cases hs
      refine ⟨fun t ht => ?_, fun t ht => ?_, ?_⟩
      · rcases List.mem_append.1 ht with ht | ht
        · exact h.ordered t ht
        · rw [List.mem_singleton.1 ht]
          exact hc
      · rcases List.mem_append.1 ht with ht | ht
        · exact h.owned t ht
        · rw [List.mem_singleton.1 ht]
          exact fun l hl => (List.not_mem_nil hl).elim
      · rw [List.map_append]
        refine List.Nodup.append h.names (List.nodup_singleton _) fun n hn hn' => ?_
        rw [List.mem_singleton.1 hn'] at hn
        exact hnew hn
  | step i =>
    obtain ⟨t, hi, hs⟩ := Option.bind_eq_some_iff.1 hs
    obtain ⟨t', ht', rfl⟩ := Option.map_eq_some_iff.1 hs
    have hmem : t ∈ P := List.mem_of_getElem? hi
    obtain ⟨hname, -, ho, hown⟩ := advance_ordered ht' (h.ordered t hmem) (h.owned t hmem)
    refine ⟨fun u hu => ?_, fun u hu => ?_, ?_⟩
    · rcases List.mem_or_eq_of_mem_set hu with hu | rfl
      · exact h.ordered u hu
      · exact ho
    · rcases List.mem_or_eq_of_mem_set hu with hu | rfl
      · exact h.owned u hu
      · exact hown
    · have hsame : (P.set i t').map Task.name = P.map Task.name := by
        obtain ⟨hlt, rfl⟩ := List.getElem?_eq_some_iff.1 hi
        rw [List.map_set, hname, ← List.getElem_map Task.name, List.set_getElem_self]
        rwa [List.length_map]
      rw [hsame]
      exact h.names

end

/-! ## Some task can always go on -/

section
variable {τ L R : Type*} [DecidableEq L] [LinearOrder R] {rank : L → R} {owner : L → Option τ}
    {P : List (Task τ L)}

/-- The rank of the lock a task is about to take. -/
def Task.wanted (rank : L → R) (t : Task τ L) : WithBot R :=
  match t.todo with
  | .acquire l _ :: _ => rank l
  | _ => ⊥

/-- Only its owner ever has an owned lock. -/
theorem InOrder.eq_of_owned (h : InOrder rank owner P) {t u : Task τ L} (ht : t ∈ P) (hu : u ∈ P) {l : L}
    (hl : owner l = some t.name) (hul : owner l = none ∨ owner l = some u.name) : u = t := by
  rcases hul with hul | hul
  · rw [hl] at hul
    cases hul
  · rw [hl] at hul
    exact List.inj_on_of_nodup_map h.names hu ht (Option.some.inj hul).symm

/-- Nobody stands in the way of a task that wants a lock of its own. -/
theorem InOrder.granted_of_owned (h : InOrder rank owner P) {t : Task τ L} (ht : t ∈ P) {l : L} {m : Mode}
    {todo : List (Act L)} (htodo : t.todo = .acquire l m :: todo) (hown : owner l = some t.name) :
    granted P t = true := by
  have ho := h.ordered t ht
  rw [htodo] at ho
  have hfree : free P l m = true := by
    refine free_iff.2 fun u hu p hp hpl => ?_
    have hmem : l ∈ u.held.map Prod.fst := hpl ▸ List.mem_map_of_mem hp
    obtain rfl := h.eq_of_owned ht hu hown (h.owned u hu l hmem)
    exact absurd hmem ho.1.1
  unfold granted
  rw [htodo]
  simp only [hfree, Bool.true_and, Bool.or_eq_true, decide_eq_true_eq, Bool.not_eq_true', List.any_eq_false]
  by_cases hm : m = .exclusive
  · exact Or.inl hm
  · refine Or.inr fun u hu hw => ?_
    -- whoever waits for the lock is its owner, so it is this task, which does not
    unfold Task.waitsExclusive at hw
    split at hw
    · rename_i k rest hut
      obtain rfl := of_decide_eq_true hw
      have hou := h.ordered u hu
      rw [hut] at hou
      obtain rfl := h.eq_of_owned ht hu hown (hou.1.2.elim Or.inr fun hnone => Or.inl hnone.1)
      rw [htodo] at hut
      cases hut
      exact hm rfl
    · cases hw

/-- A lock that nobody wants above is held by nobody. -/
theorem InOrder.free_of_max (h : InOrder rank owner P) (hstuck : ∀ t ∈ P, granted P t = false) {t : Task τ L}
    (hmax : ∀ u ∈ P, u.wanted rank ≤ t.wanted rank) {l : L} {m : Mode} {todo : List (Act L)}
    (htodo : t.todo = .acquire l m :: todo) (hnone : owner l = none) (m' : Mode) : free P l m' = true := by
  refine free_iff.2 fun u hu p hp hpl => ?_
  exfalso
  have hmem : l ∈ u.held.map Prod.fst := hpl ▸ List.mem_map_of_mem hp
  have ho := h.ordered u hu
  have hgu := hstuck u hu
  cases hut : u.todo with
  | nil =>
    -- a task at its end has released everything
    rw [hut] at ho
    rw [show u.held.map Prod.fst = [] from ho] at hmem
    exact List.not_mem_nil hmem
  | cons a rest =>
    cases a with
    | release k =>
      rw [granted, hut] at hgu
      cases hgu
    | acquire k n =>
      rw [hut] at ho
      rcases ho.1.2 with hown | ⟨-, hranks⟩
      · rw [h.granted_of_owned hu hut hown] at hgu
        cases hgu
      · have hlt : rank l < rank k := hranks l hmem hnone
        have hle := hmax u hu
        rw [Task.wanted, hut, Task.wanted, htodo] at hle
        exact absurd (WithBot.coe_le_coe.1 hle) (not_le.2 hlt)

/-- Not all tasks are at their end: one is granted its next action. -/
theorem InOrder.exists_granted (h : InOrder rank owner P) (hne : ∃ t ∈ P, t.todo ≠ []) :
    ∃ t ∈ P, granted P t = true := by
  by_contra hcon
  have hstuck : ∀ t ∈ P, granted P t = false := by
    intro t ht
    cases hg : granted P t with
    | false => rfl
    | true => exact absurd ⟨t, ht, hg⟩ hcon
  obtain ⟨t₀, ht₀, hne⟩ := hne
  -- the task that wants the lock of the highest rank
  obtain ⟨t, ht, hmax⟩ := Multiset.exists_max_image (Task.wanted rank) (s := (P : Multiset (Task τ L)))
    (by simpa using List.ne_nil_of_mem ht₀)
  have hwant : ∀ u ∈ P, u.todo ≠ [] → ∃ l m todo, u.todo = .acquire l m :: todo ∧ owner l = none := by
    intro u hu hun
    have hg := hstuck u hu
    have ho := h.ordered u hu
    cases hut : u.todo with
    | nil => exact absurd hut hun
    | cons a todo =>
      cases a with
      | release k =>
        rw [granted, hut] at hg
        cases hg
      | acquire l m =>
        rw [hut] at ho
        rcases ho.1.2 with hown | hnone
        · rw [h.granted_of_owned hu hut hown] at hg
          cases hg
        · exact ⟨l, m, todo, rfl, hnone.1⟩
  have htodo : t.todo ≠ [] := by
    intro hnil
    obtain ⟨l, m, todo, hl, -⟩ := hwant t₀ ht₀ hne
    have hle := hmax t₀ ht₀
    rw [Task.wanted, hl, Task.wanted, hnil] at hle
    exact absurd hle (by simp)
  obtain ⟨l, m, todo, hl, hnone⟩ := hwant t ht htodo
  have hfree : ∀ m', free P l m' = true := h.free_of_max hstuck hmax hl hnone
  have hg := hstuck t ht
  unfold granted at hg
  rw [hl] at hg
  simp only [hfree, Bool.true_and, Bool.or_eq_false_iff, decide_eq_false_iff_not, Bool.not_eq_false',
      List.any_eq_true] at hg
  -- it is kept waiting by one that wants the same lock exclusively, which nothing keeps waiting
  obtain ⟨-, u, hu, hw⟩ := hg
  unfold Task.waitsExclusive at hw
  split at hw
  · rename_i k rest hut
    obtain rfl := of_decide_eq_true hw
    have hgu := hstuck u hu
    unfold granted at hgu
    rw [hut] at hgu
    simp [hfree] at hgu
  · cases hw

end

/-! ## Whole runs -/

section
variable {τ L R : Type*} [DecidableEq L] [DecidableEq τ] [LinearOrder R] {rank : L → R} {owner : L → Option τ}
  {P Q : List (Task τ L)}

/-- The run lemma. -/
theorem inOrder_run {turns : List (Turn τ L)} (h : Machine.run step [] turns = some P)
    (hstarts : ∀ name todo, Turn.start name todo ∈ turns → Ordered rank owner name [] todo) :
    InOrder rank owner P := by
  refine Machine.run_invariant (C := StartsOrdered rank owner) (I := InOrder rank owner)
    (fun P a Q hs hc hI => hI.step hs hc) turns [] P h ?_ inOrder_nil
  refine Machine.along_of_forall turns [] fun a ha P => ?_
  cases a with
  | start name todo => exact hstarts name todo ha
  | step i => trivial

theorem remaining_step {i : Nat} (h : step P (.step i) = some Q) : remaining Q + 1 = remaining P := by
  obtain ⟨t, hi, h⟩ := Option.bind_eq_some_iff.1 h
  obtain ⟨t', ht', rfl⟩ := Option.map_eq_some_iff.1 h
  have hlen : t'.todo.length + 1 = t.todo.length := by
    unfold Task.advance at ht'
    split at ht'
    · cases ht'
    · rename_i htodo
      split at ht'
      · cases ht'
        rw [htodo]
        rfl
      · cases ht'
    · rename_i htodo
      cases ht'
      rw [htodo]
      rfl
  have hsum := Pool.sum_set (fun t : Task τ L => t.todo.length) t' hi
  unfold remaining
  omega

/-- However the actions are interleaved, each is taken once. -/
theorem length_of_run {is : List Nat} (h : Machine.run step P (is.map Turn.step) = some Q) :
    is.length + remaining Q = remaining P := by
  induction is generalizing P with
  | nil =>
    cases h
    exact Nat.zero_add _
  | cons i is ih =>
    obtain ⟨P', hs, h⟩ := (Machine.run_cons_eq_some _).1 h
    have hone := remaining_step hs
    have hrest := ih h
    rw [List.length_cons]
    omega

/-- What is granted is possible. -/
theorem step_of_granted {i : Nat} {t : Task τ L} (hi : P[i]? = some t) (h : granted P t = true) :
    ∃ Q, step P (.step i) = some Q := by
  have hadv : ∃ t', t.advance P = some t' := by
    unfold granted at h
    unfold Task.advance
    split at h
    · cases h
    · rw [if_pos (Bool.and_eq_true_iff.1 h).1]
      exact ⟨_, rfl⟩
    · exact ⟨_, rfl⟩
  obtain ⟨t', ht'⟩ := hadv
  refine ⟨P.set i t', ?_⟩
  simp only [step, hi, Option.bind_some, ht', Option.map_some]

/-- The task that takes its next action is granted it. -/
def StepGranted (P : List (Task τ L)) : Turn τ L → Prop
  | .start _ _ => True
  | .step i => ∃ t, P[i]? = some t ∧ granted P t = true

/-- Ordered tasks can all come to their ends, by actions that are granted. -/
theorem InOrder.exists_finish (h : InOrder rank owner P) :
    ∃ (is : List Nat) (Q : List (Task τ L)), Machine.run LockOrder.step P (is.map Turn.step) = some Q ∧
      Machine.Along LockOrder.step StepGranted P (is.map Turn.step) ∧ ∀ t ∈ Q, t.todo = [] := by
  induction hn : remaining P generalizing P with
  | zero =>
    refine ⟨[], P, rfl, trivial, fun t ht => ?_⟩
    exact List.length_eq_zero_iff.1 (List.sum_eq_zero_iff_forall_eq_nat.1 hn _ (List.mem_map.2 ⟨t, ht, rfl⟩))
  | succ n ih =>
    have hne : ∃ t ∈ P, t.todo ≠ [] := by
      by_contra hcon
      have hzero : remaining P = 0 := by
        refine List.sum_eq_zero_iff_forall_eq_nat.2 fun k hk => ?_
        obtain ⟨t, ht, rfl⟩ := List.mem_map.1 hk
        by_contra hk0
        exact hcon ⟨t, ht, fun hnil => hk0 (by rw [hnil]; rfl)⟩
      omega
    obtain ⟨t, ht, hg⟩ := h.exists_granted hne
    obtain ⟨i, hi⟩ := List.getElem?_of_mem ht
    obtain ⟨Q, hQ⟩ := step_of_granted hi hg
    have hrem := remaining_step hQ
    obtain ⟨is, Q', hrun, halong, hdone⟩ := ih (h.step hQ trivial) (by omega)
    refine ⟨i :: is, Q', (Machine.run_cons_eq_some _).2 ⟨Q, hQ, hrun⟩, ⟨⟨t, hi, hg⟩, fun Q₂ hQ₂ => ?_⟩, hdone⟩
    rw [hQ] at hQ₂
    cases hQ₂
    exact halong

end

/-! ## Lists put together from pieces -/

section
variable {τ L R : Type*} [DecidableEq L] [LinearOrder R] (rank : L → R) (owner : L → Option τ) (name : τ)

/-- The piece may stand wherever the locks it uses may be taken. -/
def Fits (uses : L → Prop) (as : List (Act L)) : Prop :=
  ∀ held rest, (∀ l, uses l → Clear rank owner name held l) → Ordered rank owner name held rest →
    Ordered rank owner name held (as ++ rest)

/-- `k` may be taken over `l`. -/
def Over (l k : L) : Prop :=
  k ≠ l ∧ (owner k = some name ∨ owner k = none ∧ (owner l = none → rank l < rank k))

variable {rank owner name} {u v : L → Prop} {as bs : List (Act L)}

omit [DecidableEq L] in
theorem Clear.over {held : List L} {l k : L} (h : Clear rank owner name held k) (hk : Over rank owner name l k) :
    Clear rank owner name (l :: held) k := by
  refine ⟨List.not_mem_cons_of_ne_of_not_mem hk.1 h.1, ?_⟩
  rcases hk.2 with hown | ⟨hnone, hrank⟩
  · exact Or.inl hown
  · refine Or.inr ⟨hnone, fun j hj hjn => ?_⟩
    rcases List.mem_cons.1 hj with rfl | hj
    · exact hrank hjn
    · rcases h.2 with hown | ⟨-, hranks⟩
      · rw [hnone] at hown
        cases hown
      · exact hranks j hj hjn

theorem fits_nil : Fits rank owner name u [] := fun _ _ _ h => h

theorem Fits.append (ha : Fits rank owner name u as) (hb : Fits rank owner name u bs) :
    Fits rank owner name u (as ++ bs) := by
  intro held rest hu hrest
  rw [List.append_assoc]
  exact ha held _ hu (hb held rest hu hrest)

theorem Fits.mono (h : Fits rank owner name u as) (huv : ∀ l, u l → v l) : Fits rank owner name v as :=
  fun held rest hv hrest => h held rest (fun l hl => hv l (huv l hl)) hrest

theorem fits_flatMap {α : Type*} {xs : List α} {f : α → List (Act L)}
    (h : ∀ a ∈ xs, Fits rank owner name u (f a)) :
    Fits rank owner name u (xs.flatMap f) := by
  induction xs with
  | nil => exact fits_nil
  | cons a xs ih =>
    rw [List.flatMap_cons]
    exact (h a List.mem_cons_self).append (ih fun b hb => h b (List.mem_cons_of_mem a hb))

/-- A lock held over a piece that uses locks above it. -/
theorem Fits.hold (h : Fits rank owner name v as) {l : L} (hl : u l)
    (hv : ∀ k, v k → u k ∧ Over rank owner name l k) (m : Mode) : Fits rank owner name u (hold l m as) := by
  intro held rest hu hrest
  refine ⟨hu l hl, ?_⟩
  rw [show (as ++ [Act.release l]).append rest = as ++ ([Act.release l] ++ rest) from List.append_assoc ..]
  refine h (l :: held) _ (fun k hk => (hu k (hv k hk).1).over (hv k hk).2) ⟨List.mem_cons_self, ?_⟩
  rw [List.erase_cons_head]
  exact hrest

theorem fits_hold_nil {l : L} (hl : u l) (m : Mode) : Fits rank owner name u (LockOrder.hold l m []) :=
  (fits_nil (u := fun _ => False)).hold hl (fun _ hk => hk.elim) m

theorem Fits.ordered (h : Fits rank owner name u as) (hu : ∀ l, u l → owner l = none ∨ owner l = some name) :
    Ordered rank owner name [] as := by
  have hclear : ∀ l, u l → Clear rank owner name [] l := fun l hl =>
    ⟨List.not_mem_nil, (hu l hl).symm.imp id fun hn => ⟨hn, fun _ hk => (List.not_mem_nil hk).elim⟩⟩
  have hrest := h [] [] hclear rfl
  rwa [List.append_nil] at hrest

/-- Locks of growing rank, the next one taken before the last is released. -/
theorem fits_handOver {ls : List L} (hu : ∀ l ∈ ls, u l ∧ owner l = none)
    (hranks : ls.Pairwise fun l k => rank l < rank k)
    (m : Mode) : Fits rank owner name u (handOver m ls) := by
  -- `l` is held, `k` is next
  have hgo : ∀ (ls : List L) (l k : L) (held : List L) (rest : List (Act L)),
      (∀ j, u j → Clear rank owner name held j) → (∀ j ∈ l :: k :: ls, u j ∧ owner j = none) →
      (l :: k :: ls).Pairwise (fun l k => rank l < rank k) → Ordered rank owner name held rest →
      Ordered rank owner name (l :: held) (handOver.go m l k ls ++ rest) := by
    intro ls
    induction ls with
    | nil =>
      intro l k held rest hclear hu hranks hrest
      have hlk : rank l < rank k := List.rel_of_pairwise_cons hranks List.mem_cons_self
      have hne : l ≠ k := fun heq => absurd hlk (heq ▸ lt_irrefl _)
      obtain ⟨huk, hkn⟩ := hu k (by simp)
      refine ⟨(hclear k huk).over ⟨hne.symm, Or.inr ⟨hkn, fun _ => hlk⟩⟩, by simp, ?_⟩
      rw [List.erase_cons_tail (by simpa using hne.symm), List.erase_cons_head]
      refine ⟨List.mem_cons_self, ?_⟩
      rw [List.erase_cons_head]
      exact hrest
    | cons j ls ih =>
      intro l k held rest hclear hu hranks hrest
      have hlk : rank l < rank k := List.rel_of_pairwise_cons hranks List.mem_cons_self
      have hne : l ≠ k := fun heq => absurd hlk (heq ▸ lt_irrefl _)
      obtain ⟨huk, hkn⟩ := hu k (by simp)
      refine ⟨(hclear k huk).over ⟨hne.symm, Or.inr ⟨hkn, fun _ => hlk⟩⟩, by simp, ?_⟩
      rw [List.erase_cons_tail (by simpa using hne.symm), List.erase_cons_head]
      exact ih k j held rest hclear (fun i hi => hu i (List.mem_cons_of_mem l hi)) hranks.of_cons hrest
  cases ls with
  | nil => exact fits_nil
  | cons l ls =>
    cases ls with
    | nil => exact fits_hold_nil (hu l List.mem_cons_self).1 m
    | cons k ls =>
      intro held rest hclear hrest
      exact ⟨hclear l (hu l List.mem_cons_self).1, hgo ls l k held rest hclear hu hranks hrest⟩

end

end LockOrder

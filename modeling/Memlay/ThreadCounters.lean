import Memlay.Threads
import Memlay.Accounting
import Mathlib.Algebra.Group.Prod
import Mathlib.Tactic.Abel

/-!
# The counters under concurrent calls

Between two operations of a call the counters are behind `by_id`: an insert has
put its event there and not counted it yet, a removal has taken one out and not
subtracted it.  `debt pc` is what the call at `pc` still has to add.  The sum of
the counters and of all debts is the total over `by_id`, in every state, as long
as every early exit of `insert` finds its own event still in `by_id`: that exit
removes the event without counting, which is right for the event it put there
itself and had not counted, and wrong when a competing call has removed it (and
subtracted it) in between.

    run along NoLateDrop, then Quiescent  →  the counters are exact      (quiescent_accounted)
-/

namespace Memlay
namespace Threads

open Pool Index

/-! ## Debts -/

/-- The two counters. -/
def counters (s : Index) : Usize × Usize := (s.memoryBytes, s.eventCount)

/-- What one live event counts for. -/
def weight (e : Event) : Usize × Usize := (usize e.raw.length, 1)

/-- What a call still has to add to the counters. -/
def debt : Pc → Usize × Usize
  | .rmMemory _ x => -weight x
  | .rmCount _ _ => (0, -1)
  | .early e _ => weight e
  | .earlyDrop e => weight e
  | .addMemory e _ => weight e
  | .addCount _ _ => (0, 1)
  | .cleanMemory e => -weight e
  | .cleanCount _ => (0, -1)
  | _ => 0

theorem total_weight (m : Table Bytes32 Event) :
    Table.total weight m = (Table.total (fun e => usize e.raw.length) m, Table.total (fun _ => 1) m) := by
  unfold Table.total
  induction m.values with
  | nil => rfl
  | cons v vs ih =>
    simp only [List.map_cons, List.sum_cons, ih]
    rfl

theorem balanced_iff_counters (s : Index) : Balanced s ↔ counters s = Table.total weight s.byId := by
  rw [total_weight, counters, Prod.mk.injEq]
  exact ⟨fun h => ⟨h.memory, h.count⟩, fun h => ⟨h.1, h.2⟩⟩

/-! ## One step -/

/-- Counters plus debt move with the total over `by_id`. -/
def Drift (s : Shared) (pc : Pc) (s' : Shared) (pc' : Pc) : Prop :=
  counters s'.idx + debt pc' + Table.total weight s.idx.byId =
    counters s.idx + debt pc + Table.total weight s'.idx.byId

/-- A step that leaves `by_id` alone. -/
theorem Drift.of_byId {s s' : Shared} {pc pc' : Pc} (hid : s'.idx.byId = s.idx.byId)
    (hd : counters s'.idx + debt pc' = counters s.idx + debt pc) : Drift s pc s' pc' := by
  unfold Drift
  rw [hid, hd]

/-- A step that leaves `by_id`, the counters and the debt alone. -/
theorem Drift.of_same {s s' : Shared} {pc pc' : Pc} (hid : s'.idx.byId = s.idx.byId)
    (hc : counters s'.idx = counters s.idx) (hd : debt pc' = debt pc) : Drift s pc s' pc' :=
  .of_byId hid (by rw [hc, hd])

theorem counters_addMemory (s : Index) (n : Usize) (w : Usize × Usize) :
    counters (s.addMemory n) + w = counters s + ((n, 0) + w) := by
  ext <;> simp [counters, Index.addMemory, add_assoc]

theorem counters_addCount (s : Index) (n : Usize) (w : Usize × Usize) :
    counters (s.addCount n) + w = counters s + ((0, n) + w) := by
  ext <;> simp [counters, Index.addCount, add_assoc]

theorem Drift.of_memory {s : Shared} {pc pc' : Pc} {n : Usize} (hd : debt pc = (n, 0) + debt pc') :
    Drift s pc { s with idx := s.idx.addMemory n } pc' := by
  refine .of_byId (byId_addMemory _ _) ?_
  show counters (s.idx.addMemory n) + debt pc' = counters s.idx + debt pc
  rw [counters_addMemory, hd]

theorem Drift.of_count {s : Shared} {pc pc' : Pc} {n : Usize} (hd : debt pc = (0, n))
    (hd' : debt pc' = 0) : Drift s pc { s with idx := s.idx.addCount n } pc' := by
  refine .of_byId (byId_addCount _ _) ?_
  show counters (s.idx.addCount n) + debt pc' = counters s.idx + debt pc
  rw [counters_addCount, hd, hd', add_zero]

/-- A step that takes out a live event. -/
theorem Drift.of_drop {s : Shared} {pc pc' : Pc} {id : Bytes32} {x : Event} (hx : s.live id = some x)
    (hd : debt pc' + weight x = debt pc) : Drift s pc { s with idx := s.idx.dropId id } pc' := by
  have := Table.total_erase weight hx
  show counters s.idx + debt pc' + Table.total weight s.idx.byId =
    counters s.idx + debt pc + Table.total weight (s.idx.byId.erase id)
  rw [← this, ← hd]
  abel

/-- A step that puts an event under a free id. -/
theorem Drift.of_put {s : Shared} {pc pc' : Pc} {e : Event} (hx : s.live e.id = none)
    (hd : debt pc' = weight e + debt pc) : Drift s pc { s with idx := s.idx.putId e } pc' := by
  show counters s.idx + debt pc' + Table.total weight s.idx.byId =
    counters s.idx + debt pc + Table.total weight (s.idx.byId.insert e.id e)
  rw [Table.total_insert_of_none weight e hx, hd]
  abel

theorem weight_eq {E : Event → Prop} (hraw : ∀ a b, E a → E b → a.id = b.id → a.raw = b.raw)
    {a b : Event} (ha : E a) (hb : E b) (h : a.id = b.id) : weight a = weight b := by
  unfold weight
  rw [hraw a b ha hb h]

theorem debt_afterTombs (e : Event) : debt (afterTombs e) = 0 := by
  unfold afterTombs
  split <;> rfl

theorem debt_return {s : Shared} {r : Option Event} (c : Caller) : debt (return' s r c).2 = 0 := by
  cases c <;> rfl

/-- The step lemma: one case for each branch of `move`. -/
theorem move_drift {E : Event → Prop} (hraw : ∀ a b, E a → E b → a.id = b.id → a.raw = b.raw)
    {i : Nat} {s s' : Shared} {pc pc' : Pc} (h : move i s pc = some (s', pc')) (hl : LiveIn E s)
    (hpc : ∀ x ∈ pc.events, E x) (hdrop : ∀ e, pc = .earlyDrop e → s.live e.id ≠ none) :
    Drift s pc s' pc' := by
  cases move_cases h with
  | noTombs e h => exact .of_same rfl rfl (debt_afterTombs e)
  | someTombs e h => exact .of_same rfl rfl rfl
  | tombed e h => exact .of_same rfl rfl rfl
  | untombed e h => exact .of_same rfl rfl (debt_afterTombs e)
  | occupied e oldId hg hs => exact .of_same rfl rfl rfl
  | vacant e hg hs => exact .of_same rfl rfl rfl
  | wins e oldId hw => exact .of_same rfl rfl rfl
  | loses e oldId hw => exact .of_same rfl rfl rfl
  | swaps e oldId => exact .of_same rfl rfl rfl
  | rmMissing c id h => exact .of_same (by rw [idx_return]) (by rw [idx_return]) (debt_return c)
  | rmFound c id x hx => exact .of_drop hx (by simp [debt])
  | rmMemory c x => exact .of_memory (by simp [debt, weight])
  | rmCountSlot c x h => exact .of_count rfl rfl
  | rmCountSets c x h => exact .of_count rfl rfl
  | rmSlot c x hg => exact .of_same rfl rfl rfl
  | rmSet c x b bs => exact .of_same rfl rfl rfl
  | rmReturn c x => exact .of_same (by rw [idx_return]) (by rw [idx_return]) (debt_return c)
  | putDuplicate e r x hx =>
    -- the id is there already: the new value weighs the same
    obtain ⟨hEx, hid⟩ := hl _ _ hx
    have ht := Table.total_insert_of_some weight e hx
    rw [weight_eq hraw hEx (hpc e (by simp [Pc.events])) hid] at ht
    show counters s.idx + 0 + Table.total weight s.idx.byId =
      counters s.idx + 0 + Table.total weight (s.idx.byId.insert e.id e)
    rw [add_left_cancel ht]
  | putReplaceable e r hx hr => exact .of_put hx (add_zero _).symm
  | putPlain e r hx hr => exact .of_put hx (add_zero _).symm
  | earlyWin e r hg hs => exact .of_same rfl rfl rfl
  | earlyLose e r hg hs => exact .of_same rfl rfl rfl
  | earlyDrop e =>
    obtain ⟨x, hx⟩ := Option.ne_none_iff_exists'.1 (hdrop e rfl)
    obtain ⟨hEx, hid⟩ := hl _ _ hx
    refine .of_drop hx ?_
    rw [weight_eq hraw hEx (hpc e (by simp [Pc.events])) hid]
    simp [debt]
  | addMemory e r => exact .of_memory (by simp [debt, weight])
  | addCount e r => exact .of_count rfl rfl
  | addSet e r b bs => exact .of_same rfl rfl rfl
  | addedSets e r => exact .of_same rfl rfl rfl
  | finalMissing e r h => exact .of_same rfl rfl rfl
  | finalPlain e r hr => exact .of_same rfl rfl rfl
  | finalFound e r hr => exact .of_same rfl rfl rfl
  | finalWin e r hg hs => exact .of_same rfl rfl rfl
  | finalLose e r hg hs => exact .of_same rfl rfl rfl
  | cleanFound e x hx =>
    obtain ⟨hEx, hid⟩ := hl _ _ hx
    refine .of_drop hx ?_
    rw [weight_eq hraw hEx (hpc e (by simp [Pc.events])) hid]
    simp [debt]
  | cleanMissing e h => exact .of_same rfl rfl rfl
  | cleanMemory e => exact .of_memory (by simp [debt, weight])
  | cleanCount e => exact .of_count rfl rfl
  | cleanSet e o b bs => exact .of_same rfl rfl rfl
  | cleaned e o => exact .of_same rfl rfl rfl
  | tomb _ _ t q hpc₁ hpc₂ =>
    refine .of_same rfl rfl ?_
    rcases hpc₁ with ⟨id, r, rfl⟩ | ⟨id, r, rfl⟩ | ⟨r, rfl⟩ | ⟨r, rfl⟩ <;>
      rcases hpc₂ with ⟨id, r, rfl⟩ | ⟨r, rfl⟩ | ⟨r, rfl⟩ | ⟨r, rfl⟩ <;> rfl

/-! ## Whole runs -/

/-- If the step is the `by_id.remove` of an early exit, it finds its event still there. -/
def NoLateDrop (P : Config) : Act Call → Bool
  | .call _ => true
  | .step i =>
    match P.threads[i]? with
    | some (.earlyDrop e) => (P.shared.live e.id).isSome
    | _ => true

/-- The counters with all debts are the total over `by_id`. -/
def Books (P : Config) : Prop :=
  counters P.shared.idx + (P.threads.map debt).sum = Table.total weight P.shared.idx.byId

theorem debt_start (c : Call) : debt (start c) = 0 := by
  cases c <;> rfl

theorem Books.step {E : Event → Prop} (hraw : ∀ a b, E a → E b → a.id = b.id → a.raw = b.raw)
    {P Q : Config} {a : Act Call} (h : Threads.step P a = some Q) (hdrop : NoLateDrop P a = true)
    (hE : EventsIn E P) (hB : Books P) : Books Q := by
  rcases Pool.step_cases h with ⟨c, rfl, rfl⟩ | ⟨i, pc, s', pc', rfl, hp, hm, rfl⟩
  · unfold Books at *
    rw [List.map_append, List.sum_append]
    simp only [List.map_cons, List.map_nil, List.sum_cons, List.sum_nil, debt_start, add_zero]
    exact hB
  · have hdrift : Drift P.shared pc s' pc' := by
      refine move_drift hraw hm hE.live (hE.events pc (List.mem_of_getElem? hp)) fun e he => ?_
      simp only [NoLateDrop, hp, he] at hdrop
      exact Option.isSome_iff_ne_none.1 hdrop
    -- the debt of thread i follows the counters, the others do not move
    have hsum := Pool.sum_set debt pc' hp
    unfold Drift at hdrift
    unfold Books at hB
    rw [← hB] at hdrift
    have hcancel : counters s'.idx + ((P.threads.set i pc').map debt).sum +
        (counters P.shared.idx + debt pc) =
        Table.total weight s'.idx.byId + (counters P.shared.idx + debt pc) := by
      calc counters s'.idx + ((P.threads.set i pc').map debt).sum + (counters P.shared.idx + debt pc)
          = counters s'.idx + counters P.shared.idx +
            (debt pc + ((P.threads.set i pc').map debt).sum) := by abel
        _ = counters s'.idx + debt pc' + (counters P.shared.idx + (P.threads.map debt).sum) := by
            rw [hsum]
            abel
        _ = counters P.shared.idx + debt pc + Table.total weight s'.idx.byId := hdrift
        _ = _ := add_comm _ _
    exact add_right_cancel hcancel

theorem sum_debt_of_quiescent {P : Config} (hq : Quiescent P) : (P.threads.map debt).sum = 0 := by
  apply List.sum_eq_zero
  intro w hw
  obtain ⟨pc, hpc, rfl⟩ := List.mem_map.1 hw
  obtain ⟨r, rfl⟩ := hq pc hpc
  rfl

/-- The run lemma, for the calls of one schedule. -/
theorem run_books {as : List (Act Call)}
    (hraw : ∀ a b, Called as a → Called as b → a.id = b.id → a.raw = b.raw) {P : Config}
    (hrun : Machine.run step init as = some P) (halong : Machine.Along step (NoLateDrop · ·) init as) :
    Books P := by
  refine (Machine.run_invariant (I := fun P => EventsIn (Called as) P ∧ Books P) ?_ as init P hrun
    (Machine.along_and_mem as init halong) ⟨eventsIn_init _, rfl⟩).2
  rintro P a Q h ⟨hdrop, ha⟩ ⟨hE, hB⟩
  exact ⟨hE.step h fun e he => by rw [Called, ← he]; exact ha, hB.step hraw h hdrop hE⟩

/-- **Counters under concurrent replacement.**  In every interleaving in which no
early exit of an insert comes too late, both counters are exact whenever no call
is in progress. -/
theorem quiescent_accounted (as : List (Act Call))
    (hraw : ∀ a b, Called as a → Called as b → a.id = b.id → a.raw = b.raw) (P : Config)
    (hrun : Machine.run step init as = some P) (halong : Machine.Along step (NoLateDrop · ·) init as)
    (hq : Quiescent P) (hfits : Fits P.shared.idx) : Accounted P.shared.idx := by
  rw [accounted_iff_balanced hfits, balanced_iff_counters]
  have := run_books hraw hrun halong
  unfold Books at this
  rwa [sum_debt_of_quiescent hq, add_zero] at this

/-- The raw bytes of the two versions. -/
theorem raw_eq_of_versions {as : List (Act Call)} (h : ∀ e, Called as e → e = versionA ∨ e = versionB) :
    ∀ a b, Called as a → Called as b → a.id = b.id → a.raw = b.raw := by
  intro a b ha hb hid
  have hne : versionA.id ≠ versionB.id := by decide
  rcases h a ha with rfl | rfl <;> rcases h b hb with rfl | rfl
  · rfl
  · exact absurd hid hne
  · exact absurd hid.symm hne
  · rfl

/-- A publishes and stores itself, B swaps it out, stores itself and subtracts A,
which A had not added yet; A then leaves by its early exit. -/
def lateDrop : List (Act Call) :=
  [.call (.insert versionA), .call (.insert versionB)] ++ steps 0 3 ++ steps 1 21 ++ steps 0 2

theorem lateDrop_miscounts :
    (∀ a b, Called lateDrop a → Called lateDrop b → a.id = b.id → a.raw = b.raw) ∧
    ∃ P, Machine.run step init lateDrop = some P ∧ Quiescent P ∧ P.shared.idx.liveCount = 1 ∧
      P.shared.idx.eventCount = 0 ∧ ¬ Accounted P.shared.idx := by
  refine ⟨raw_eq_of_versions fun e he => ?_, ?_⟩
  · simpa [lateDrop, steps, called_iff] using he
  · obtain ⟨P, hP, h⟩ := Machine.exists_run step init lateDrop (fun P => decide (Quiescent P ∧
      P.shared.idx.liveCount = 1 ∧ P.shared.idx.eventCount = 0)) (by decide +kernel)
    obtain ⟨hq, hl, hc⟩ := of_decide_eq_true h
    refine ⟨P, hP, hq, hl, hc, fun ha => ?_⟩
    have := ha.count
    rw [hl, hc] at this
    exact absurd this (by decide)

/-- The same two inserts; the second replaces the first, and removes its version, while the
first is still filling its sets. -/
def replaceEarly : List (Act Call) :=
  [.call (.insert versionA), .call (.insert versionB)] ++ steps 0 6 ++ steps 1 9 ++ steps 0 9 ++ steps 1 12

theorem quiescent_accounted_replaceEarly :
    ∃ P, Machine.run step init replaceEarly = some P ∧ Quiescent P ∧ Accounted P.shared.idx := by
  obtain ⟨P, hP, h⟩ := Machine.exists_run step init replaceEarly
    (fun P => decide (Quiescent P ∧ P.shared.idx.liveBytes < 2 ^ 64 ∧ P.shared.idx.liveCount < 2 ^ 64))
    (by decide +kernel)
  obtain ⟨hq, hb, hc⟩ := of_decide_eq_true h
  refine ⟨P, hP, hq, quiescent_accounted _ ?_ P hP (by decide +kernel) hq ⟨hb, hc⟩⟩
  refine raw_eq_of_versions fun e he => ?_
  simpa [replaceEarly, steps, called_iff] using he

end Threads
end Memlay

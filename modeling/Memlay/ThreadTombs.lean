import Memlay.Threads

/-!
# Tombstones under concurrent calls

`insert` looks at the tombstones once, at its start; `delete_by_id` removes the
event and records the tombstone afterwards.  Both gaps can let a deleted id back
in, and both are seen at one step: the `by_id.insert` of the id.

    run along StoresUntombed  →  in every state, quiescent or not, no live id has a
                                 tombstone                         (untombed_of_run)
-/

namespace Memlay
namespace Threads

open Pool Index

/-- The id that a `delete_by_id` has removed and not yet tombstoned. -/
def Pc.deleting : Pc → Option Bytes32
  | .rmMemory (.delete id) _ | .rmCount (.delete id) _ | .rmSlot (.delete id) _ | .rmSets (.delete id) _ _
  | .tombPut id _ => some id
  | _ => none

/-- If the step stores an event, its id has no tombstone, and no `delete_by_id` of
the id is between its removal and its tombstone. -/
def StoresUntombed (P : Config) : Act Call → Bool
  | .call _ => true
  | .step i =>
    match P.threads[i]? with
    | some (.byId e _) => decide (e.id ∉ P.shared.idx.tombstones.ids) &&
        P.threads.all fun pc => decide (pc.deleting ≠ some e.id)
    | _ => true

/-- No live id has a tombstone. -/
def Untombed (s : Index) : Prop := ∀ id x, s.byId.lookup id = some x → id ∉ s.tombstones.ids

/-! ## What one step does -/

section
variable {i : Nat} {s s' : Shared} {pc pc' : Pc}

/-- The tombstones change in the four steps of `Tombstones::insert` only. -/
theorem tombstones_of_moves (h : Moves i s pc s' pc') : s'.idx.tombstones = s.idx.tombstones ∨
    (∃ id r, pc = .tombPut id r) ∨ (∃ id r, pc = .tombPush id r) ∨ (∃ r, pc = .tombEvict r) ∨
      ∃ r, pc = .tombStore r := by
  cases h with
  | tomb _ _ t q hpc hpc' => exact Or.inr hpc
  | rmMissing c id hl => exact Or.inl (by rw [idx_return])
  | rmReturn c x => exact Or.inl (by rw [idx_return])
  | rmMemory c x => exact Or.inl (Index.tombstones_addMemory _ _)
  | addMemory e r => exact Or.inl (Index.tombstones_addMemory _ _)
  | cleanMemory e => exact Or.inl (Index.tombstones_addMemory _ _)
  | rmCountSlot c x hd => exact Or.inl (Index.tombstones_addCount _ _)
  | rmCountSets c x hd => exact Or.inl (Index.tombstones_addCount _ _)
  | addCount e r => exact Or.inl (Index.tombstones_addCount _ _)
  | cleanCount e => exact Or.inl (Index.tombstones_addCount _ _)
  | _ => exact Or.inl rfl

/-- Only `Tombstones::insert` adds an id. -/
theorem mem_tombs_of_move (h : move i s pc = some (s', pc')) {id : Bytes32}
    (hid : id ∈ s'.idx.tombstones.ids) : id ∈ s.idx.tombstones.ids ∨ ∃ r, pc = .tombPut id r := by
  rcases tombstones_of_moves (move_cases h) with heq | ⟨x, r, rfl⟩ | ⟨x, r, rfl⟩ | ⟨r, rfl⟩ | ⟨r, rfl⟩
  · exact Or.inl (by rwa [heq] at hid)
  · unfold move at h
    simp only at h
    split at h
    · cases h
      exact Or.inl hid
    · cases h
      rcases Finset.mem_insert.1 hid with rfl | hid
      · exact Or.inr ⟨r, rfl⟩
      · exact Or.inl hid
  · unfold move at h
    simp only at h
    split at h
    · cases h
    · cases h
      exact Or.inl hid
  · unfold move at h
    simp only at h
    split at h
    · cases h
      exact Or.inl hid
    · split at h
      · cases h
        exact Or.inl (Finset.mem_of_mem_erase hid)
      · cases h
        exact Or.inl hid
  · cases h
    exact Or.inl hid

/-- Only `by_id.insert` makes an id live. -/
theorem live_of_moves (h : Moves i s pc s' pc') {id : Bytes32} {x : Event} (hx : s'.live id = some x) :
    (∃ y, s.live id = some y) ∨ ∃ e r, pc = .byId e r ∧ e.id = id := by
  have hput : ∀ e r, pc = .byId e r → Shared.live { s with idx := s.idx.putId e } id = some x →
      (∃ y, s.live id = some y) ∨ ∃ e r, pc = .byId e r ∧ e.id = id := by
    intro e r hpc hl
    rw [Shared.live_putId] at hl
    by_cases hid : id = e.id
    · exact Or.inr ⟨e, r, hpc, hid.symm⟩
    · rw [if_neg hid] at hl
      exact Or.inl ⟨x, hl⟩
  have hdrop : ∀ y, Shared.live { s with idx := s.idx.dropId y } id = some x → ∃ y, s.live id = some y := by
    intro y hl
    rw [Shared.live_dropId] at hl
    split at hl
    · cases hl
    · exact ⟨x, hl⟩
  have hsame : s'.idx.byId = s.idx.byId → (∃ y, s.live id = some y) ∨ ∃ e r, pc = .byId e r ∧ e.id = id :=
    fun h => Or.inl ⟨x, (Shared.live_congr h id).symm.trans hx⟩
  cases h with
  | putDuplicate e r y hy => exact hput e r rfl hx
  | putReplaceable e r hn hr => exact hput e r rfl hx
  | putPlain e r hn hr => exact hput e r rfl hx
  | rmFound c y z hz => exact Or.inl (hdrop y hx)
  | earlyDrop e => exact Or.inl (hdrop e.id hx)
  | cleanFound e y hy => exact Or.inl (hdrop e.id hx)
  | rmMissing c y hl => exact hsame (by rw [idx_return])
  | rmReturn c y => exact hsame (by rw [idx_return])
  | rmMemory c y => exact hsame (Index.byId_addMemory _ _)
  | addMemory e r => exact hsame (Index.byId_addMemory _ _)
  | cleanMemory e => exact hsame (Index.byId_addMemory _ _)
  | rmCountSlot c y hd => exact hsame (Index.byId_addCount _ _)
  | rmCountSets c y hd => exact hsame (Index.byId_addCount _ _)
  | addCount e r => exact hsame (Index.byId_addCount _ _)
  | cleanCount e => exact hsame (Index.byId_addCount _ _)
  | _ => exact Or.inl ⟨x, hx⟩

/-- A `delete_by_id` comes to its tombstone over the removal of its own id. -/
def OwnTarget (pc : Pc) : Prop := ∀ id x, pc = .rmById (.delete id) x → x = id

theorem ownTarget_start (c : Call) : OwnTarget (start c) := by
  intro id x h
  cases c with
  | insert e => cases h
  | remove y => cases h
  | deleteById y =>
    cases h
    rfl

theorem ownTarget_of_moves (h : Moves i s pc s' pc') : OwnTarget pc' := by
  intro id x hpc'
  cases h with
  | noTombs e ht =>
    unfold afterTombs at hpc'
    split at hpc' <;> cases hpc'
  | untombed e ht =>
    unfold afterTombs at hpc'
    split at hpc' <;> cases hpc'
  | rmMissing c y hl => cases c <;> cases hpc'
  | rmReturn c y => cases c <;> cases hpc'
  | tomb _ _ t q h₁ h₂ => rcases h₂ with ⟨_, _, rfl⟩ | ⟨_, rfl⟩ | ⟨_, rfl⟩ | ⟨_, rfl⟩ <;> cases hpc'
  | _ => cases hpc'

/-- After the removal the id is not live. -/
theorem deleting_of_moves (h : Moves i s pc s' pc') (hown : OwnTarget pc) {id : Bytes32}
    (hid : pc'.deleting = some id) : pc.deleting = some id ∨ s'.live id = none := by
  cases h with
  | noTombs e ht =>
    unfold afterTombs at hid
    split at hid <;> cases hid
  | untombed e ht =>
    unfold afterTombs at hid
    split at hid <;> cases hid
  | rmMissing c y hl =>
    cases c with
    | remove => cases hid
    | swap e => cases hid
    | delete z =>
      have hz := hown z y rfl
      cases hid
      rw [hz] at hl
      exact Or.inr hl
  | rmFound c y x hx =>
    cases c with
    | remove => cases hid
    | swap e => cases hid
    | delete z =>
      have hz := hown z y rfl
      cases hid
      rw [hz, Shared.live_dropId, if_pos rfl]
      exact Or.inr rfl
  | rmMemory c x => cases c <;> exact Or.inl hid
  | rmCountSlot c x hd => cases c <;> exact Or.inl hid
  | rmCountSets c x hd => cases c <;> exact Or.inl hid
  | rmSlot c x hg => cases c <;> exact Or.inl hid
  | rmSet c x b bs => cases c <;> exact Or.inl hid
  | rmReturn c x =>
    cases c with
    | remove => cases hid
    | swap e => cases hid
    | delete z =>
      cases hid
      exact Or.inl rfl
  | tomb _ _ t q h₁ h₂ => rcases h₂ with ⟨_, _, rfl⟩ | ⟨_, rfl⟩ | ⟨_, rfl⟩ | ⟨_, rfl⟩ <;> cases hid
  | _ => cases hid

end

/-! ## Whole runs -/

/-- A live id has no tombstone, and no `delete_by_id` is about to give it one. -/
structure TombInv (P : Config) : Prop where
  own : ∀ pc ∈ P.threads, OwnTarget pc
  live : ∀ id x, P.shared.live id = some x → id ∉ P.shared.idx.tombstones.ids ∧
    ∀ pc ∈ P.threads, pc.deleting ≠ some id

theorem deleting_start (c : Call) : (start c).deleting = none := by
  cases c <;> rfl

theorem TombInv.step {P Q : Config} {a : Act Call} (h : TombInv P) (hstep : Threads.step P a = some Q)
    (hput : StoresUntombed P a = true) : TombInv Q := by
  rcases Pool.step_cases hstep with ⟨c, rfl, rfl⟩ | ⟨i, pc, s', pc', rfl, hp, hm, rfl⟩
  · refine ⟨fun pc hpc => ?_, fun id x hx => ⟨(h.live id x hx).1, fun pc hpc => ?_⟩⟩
    · rcases List.mem_append.1 hpc with hpc | hpc
      · exact h.own pc hpc
      · rw [List.mem_singleton.1 hpc]
        exact ownTarget_start c
    · rcases List.mem_append.1 hpc with hpc | hpc
      · exact (h.live id x hx).2 pc hpc
      · rw [List.mem_singleton.1 hpc, deleting_start]
        exact fun hn => by cases hn
  · have hmv := move_cases hm
    have hmem : pc ∈ P.threads := List.mem_of_getElem? hp
    refine ⟨fun q hq => ?_, fun id x hx => ?_⟩
    · rcases List.mem_or_eq_of_mem_set hq with hq | rfl
      · exact h.own q hq
      · exact ownTarget_of_moves hmv
    · -- before the step: no tombstone, and nobody about to set one
      have hbefore : id ∉ P.shared.idx.tombstones.ids ∧ ∀ q ∈ P.threads, q.deleting ≠ some id := by
        rcases live_of_moves hmv hx with ⟨y, hy⟩ | ⟨e, r, rfl, rfl⟩
        · exact h.live id y hy
        · simpa [StoresUntombed, hp] using hput
      refine ⟨fun hid => ?_, fun q hq hdel => ?_⟩
      · rcases mem_tombs_of_move hm hid with hid | ⟨r, rfl⟩
        · exact hbefore.1 hid
        · exact hbefore.2 _ hmem rfl
      · rcases List.mem_or_eq_of_mem_set hq with hq | rfl
        · exact hbefore.2 q hq hdel
        · rcases deleting_of_moves hmv (h.own pc hmem) hdel with hdel | hnone
          · exact hbefore.2 pc hmem hdel
          · rw [hnone] at hx
            cases hx

theorem tombInv_init : TombInv init := ⟨fun pc h => (by cases h), fun id x hx => by cases hx⟩

/-- In every interleaving in which each event is stored without a tombstone, given or
on its way, no live id has a tombstone. -/
theorem untombed_of_run (as : List (Act Call)) (P : Config) (hrun : Machine.run step init as = some P)
    (halong : Machine.Along step (StoresUntombed · ·) init as) : Untombed P.shared.idx := by
  have h := Machine.run_invariant (fun P a Q hs hc (hI : TombInv P) => hI.step hs hc) as init P hrun halong
    tombInv_init
  exact fun id x hx => (h.live id x hx).1

/-- A note is deleted while its insert is still filling the sets, and another insert of it
is refused. -/
def deleteEarly : List (Act Call) :=
  [.call (.insert (note 0)), .call (.deleteById (note 0).id), .call (.insert (note 0))] ++ steps 0 5 ++
      steps 1 5 ++
    steps 0 8 ++ steps 1 6 ++ steps 2 2

theorem untombed_deleteEarly :
    ∃ P, Machine.run step init deleteEarly = some P ∧ Quiescent P ∧
      (note 0).id ∈ P.shared.idx.tombstones.ids ∧ Untombed P.shared.idx := by
  obtain ⟨P, hP, h⟩ := Machine.exists_run step init deleteEarly
    (fun P => decide (Quiescent P ∧ (note 0).id ∈ P.shared.idx.tombstones.ids)) (by decide +kernel)
  obtain ⟨hq, ht⟩ := of_decide_eq_true h
  exact ⟨P, hP, hq, ht, untombed_of_run deleteEarly P hP (by decide +kernel)⟩

/-- The insert has looked at the tombstones when the deletion runs, and stores
afterwards. -/
def storeLate : List (Act Call) :=
  [.call (.insert (note 0)), .call (.deleteById (note 0).id)] ++ steps 0 1 ++ steps 1 5 ++ steps 0 8

theorem storeLate_resurrects :
    ∃ P, Machine.run step init storeLate = some P ∧ Quiescent P ∧ ¬ Untombed P.shared.idx := by
  obtain ⟨P, hP, h⟩ := Machine.exists_run step init storeLate
    (fun P => decide (Quiescent P ∧ (note 0).id ∈ P.shared.idx.tombstones.ids ∧
      (P.shared.idx.byId.lookup (note 0).id).isSome)) (by decide +kernel)
  obtain ⟨hq, ht, hl⟩ := of_decide_eq_true h
  obtain ⟨x, hx⟩ := Option.isSome_iff_exists.1 hl
  exact ⟨P, hP, hq, fun hall => hall (note 0).id x hx ht⟩

end Threads
end Memlay

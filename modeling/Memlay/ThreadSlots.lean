import Memlay.Threads

/-!
# One live version for each key, under concurrent calls

`insert` publishes its id in the slot of its key, stores the event and checks the
slot again before it returns; a swap removes the event it pushed out of the slot
while it holds the guard.  So in every state a live replaceable event either
holds its slot, or some call in progress is still going to check or remove it
(`SlotInv`).  The one step that breaks this is the `by_replaceable.remove(&key)`
of `delete_by_id`: it is made after the deleted event has left `by_id`, and takes
the slot of the key from whoever holds it then.

    run along NoForeignSlotDrop, then Quiescent  →  one live version per key   (quiescent_unique)
-/

namespace Memlay
namespace Threads

open Pool

/-! ## The entry guard -/

def Caller.locked : Caller → Option (ReplacementKey × Bytes32)
  | .swap e => some (e.replacementKey, e.id)
  | _ => none

/-- The slot whose guard the call holds, with what is in it. -/
def Pc.locked : Pc → Option (ReplacementKey × Bytes32)
  | .getOld e oldId | .swapSlot e oldId => some (e.replacementKey, oldId)
  | .rmById c _ | .rmMemory c _ | .rmCount c _ | .rmSlot c _ | .rmSets c _ _ => c.locked
  | _ => none

/-- What one step of thread `i` does to the guards. -/
structure KeepsGuards (i : Nat) (s s' : Shared) (pc' : Pc) : Prop where
  own : ∀ k id, pc'.locked = some (k, id) → s'.guard k = some i ∧ s'.slot k = some id
  others : ∀ k j, j ≠ i → s.guard k = some j → s'.guard k = some j ∧ s'.slot k = s.slot k

theorem KeepsGuards.of_same {i : Nat} {s s' : Shared} {pc pc' : Pc}
    (hpc : ∀ k id, pc.locked = some (k, id) → s.guard k = some i ∧ s.slot k = some id)
    (hg : s'.guard = s.guard) (hs : s'.idx.byReplaceable = s.idx.byReplaceable)
    (hl : pc'.locked = pc.locked ∨ pc'.locked = none) : KeepsGuards i s s' pc' := by
  refine ⟨fun k id hk => ?_, fun k j _ hk => ?_⟩
  · rw [hg, Shared.slot_congr hs]
    rcases hl with hl | hl
    · exact hpc k id (by rw [← hl, hk])
    · rw [hl] at hk
      cases hk
  · rw [hg, Shared.slot_congr hs]
    exact ⟨hk, rfl⟩

/-- The guard of `k` is given back by the thread that holds it. -/
theorem KeepsGuards.of_unlock {i : Nat} {s : Shared} {pc' : Pc} {k : ReplacementKey}
    (hk : s.guard k = some i) (hl : pc'.locked = none) : KeepsGuards i s (s.unlock k) pc' := by
  refine ⟨fun k' id h => ?_, fun k' j hj hk' => ⟨?_, rfl⟩⟩
  · rw [hl] at h
    cases h
  · have hne : k' ≠ k := by
      rintro rfl
      rw [hk] at hk'
      exact hj (Option.some.inj hk').symm
    show Function.update s.guard k none k' = some j
    rw [Function.update_of_ne hne]
    exact hk'

/-- The slot of `k` is written while no other thread holds its guard. -/
theorem KeepsGuards.of_slot {i : Nat} {s s' : Shared} {pc' : Pc} {k : ReplacementKey}
    (hg : s'.guard = s.guard) (hs : ∀ k', k' ≠ k → s'.slot k' = s.slot k')
    (hk : ∀ j, j ≠ i → s.guard k ≠ some j)
    (hown : ∀ k id, pc'.locked = some (k, id) → s'.guard k = some i ∧ s'.slot k = some id) :
    KeepsGuards i s s' pc' := by
  refine ⟨hown, fun k' j hj hk' => ?_⟩
  have hne : k' ≠ k := by
    rintro rfl
    exact hk j hj hk'
  rw [hg]
  exact ⟨hk', hs k' hne⟩

theorem locked_afterTombs (e : Event) : (afterTombs e).locked = none := by
  unfold afterTombs
  split <;> rfl

theorem KeepsGuards.of_return {i : Nat} {s : Shared} {r : Option Event} {c : Caller}
    (hpc : ∀ k id, c.locked = some (k, id) → s.guard k = some i ∧ s.slot k = some id) :
    KeepsGuards i s (return' s r c).1 (return' s r c).2 := by
  cases c with
  | remove => exact ⟨nofun, fun k j _ hk => ⟨hk, rfl⟩⟩
  | delete id => exact ⟨nofun, fun k j _ hk => ⟨hk, rfl⟩⟩
  | swap e => exact .of_unlock (hpc _ _ rfl).1 rfl

theorem move_guards {i : Nat} {s s' : Shared} {pc pc' : Pc} (h : move i s pc = some (s', pc'))
    (hpc : ∀ k id, pc.locked = some (k, id) → s.guard k = some i ∧ s.slot k = some id) :
    KeepsGuards i s s' pc' := by
  cases move_cases h with
  | noTombs e h => exact .of_same hpc rfl rfl (.inr (locked_afterTombs e))
  | someTombs e h => exact .of_same hpc rfl rfl (.inr rfl)
  | tombed e h => exact .of_same hpc rfl rfl (.inr rfl)
  | untombed e h => exact .of_same hpc rfl rfl (.inr (locked_afterTombs e))
  | occupied e oldId hg hs =>
    refine ⟨fun k id hk => ?_, fun k j hj hk => ⟨?_, rfl⟩⟩
    · obtain ⟨rfl, rfl⟩ : e.replacementKey = k ∧ oldId = id := by simpa [Pc.locked] using hk
      exact ⟨Function.update_self .., hs⟩
    · have hne : k ≠ e.replacementKey := by
        rintro rfl
        rw [hg] at hk
        cases hk
      show Function.update s.guard e.replacementKey (some i) k = some j
      rw [Function.update_of_ne hne]
      exact hk
  | vacant e hg hs =>
    refine .of_slot (k := e.replacementKey) rfl (fun k' hk' => ?_) (fun j _ => ?_) fun k id hk => by cases hk
    · rw [Shared.slot_putSlot, if_neg hk']
    · rw [hg]
      exact nofun
  | wins e oldId hw => exact .of_same hpc rfl rfl (.inl rfl)
  | loses e oldId hw => exact .of_unlock (hpc _ _ rfl).1 rfl
  | swaps e oldId =>
    obtain ⟨hg, -⟩ := hpc _ _ rfl
    refine .of_slot (k := e.replacementKey) rfl (fun k' hk' => ?_) (fun j hj hk => ?_) fun k id hk => ?_
    · rw [Shared.slot_putSlot, if_neg hk']
    · rw [hg] at hk
      exact hj (Option.some.inj hk).symm
    · obtain ⟨rfl, rfl⟩ : e.replacementKey = k ∧ e.id = id := by
        simpa [Pc.locked, Caller.locked] using hk
      rw [Shared.slot_putSlot, if_pos rfl]
      exact ⟨hg, rfl⟩
  | rmMissing c id h => exact .of_return hpc
  | rmFound c id x hx => exact .of_same hpc rfl rfl (.inl rfl)
  | rmMemory c x => exact .of_same hpc rfl (Index.byReplaceable_addMemory _ _) (.inl rfl)
  | rmCountSlot c x h => exact .of_same hpc rfl (Index.byReplaceable_addCount _ _) (.inl rfl)
  | rmCountSets c x h => exact .of_same hpc rfl (Index.byReplaceable_addCount _ _) (.inl rfl)
  | rmSlot c x hg =>
    refine .of_slot (k := x.replacementKey) rfl (fun k' hk' => ?_) (fun j _ => ?_) fun k id hk => ?_
    · rw [Shared.slot_dropSlot, if_neg hk']
    · rw [hg]
      exact nofun
    · -- the caller's own guard is on another key
      obtain ⟨hgk, hsk⟩ := hpc k id hk
      refine ⟨hgk, ?_⟩
      have hne : k ≠ x.replacementKey := by
        rintro rfl
        rw [hg] at hgk
        cases hgk
      rw [Shared.slot_dropSlot, if_neg hne]
      exact hsk
  | rmSet c x b bs => exact .of_same hpc rfl rfl (.inl rfl)
  | rmReturn c x => exact .of_return hpc
  | putDuplicate e r x hx => exact .of_same hpc rfl rfl (.inr rfl)
  | putReplaceable e r hx hr => exact .of_same hpc rfl rfl (.inr rfl)
  | putPlain e r hx hr => exact .of_same hpc rfl rfl (.inr rfl)
  | earlyWin e r hg hs => exact .of_same hpc rfl rfl (.inr rfl)
  | earlyLose e r hg hs => exact .of_same hpc rfl rfl (.inr rfl)
  | earlyDrop e => exact .of_same hpc rfl rfl (.inr rfl)
  | addMemory e r => exact .of_same hpc rfl (Index.byReplaceable_addMemory _ _) (.inr rfl)
  | addCount e r => exact .of_same hpc rfl (Index.byReplaceable_addCount _ _) (.inr rfl)
  | addSet e r b bs => exact .of_same hpc rfl rfl (.inr rfl)
  | addedSets e r => exact .of_same hpc rfl rfl (.inr rfl)
  | finalMissing e r h => exact .of_same hpc rfl rfl (.inr rfl)
  | finalPlain e r hr => exact .of_same hpc rfl rfl (.inr rfl)
  | finalFound e r hr => exact .of_same hpc rfl rfl (.inr rfl)
  | finalWin e r hg hs => exact .of_same hpc rfl rfl (.inr rfl)
  | finalLose e r hg hs => exact .of_same hpc rfl rfl (.inr rfl)
  | cleanFound e x hx => exact .of_same hpc rfl rfl (.inr rfl)
  | cleanMissing e h => exact .of_same hpc rfl rfl (.inr rfl)
  | cleanMemory e => exact .of_same hpc rfl (Index.byReplaceable_addMemory _ _) (.inr rfl)
  | cleanCount e => exact .of_same hpc rfl (Index.byReplaceable_addCount _ _) (.inr rfl)
  | cleanSet e o b bs => exact .of_same hpc rfl rfl (.inr rfl)
  | cleaned e o => exact .of_same hpc rfl rfl (.inr rfl)
  | tomb _ _ t q hpc₁ hpc₂ =>
    refine .of_same hpc rfl rfl (.inr ?_)
    rcases hpc₂ with ⟨id, r, rfl⟩ | ⟨r, rfl⟩ | ⟨r, rfl⟩ | ⟨r, rfl⟩ <;> rfl

/-- A call inside the guard holds it, and knows what is in the slot. -/
def GuardInv (P : Config) : Prop :=
  ∀ i pc, P.threads[i]? = some pc → ∀ k id, pc.locked = some (k, id) →
    P.shared.guard k = some i ∧ P.shared.slot k = some id

theorem locked_start (c : Call) : (start c).locked = none := by
  cases c <;> rfl

theorem GuardInv.step {P Q : Config} {a : Act Call} (h : Threads.step P a = some Q)
    (hG : GuardInv P) : GuardInv Q := by
  rcases Pool.step_cases h with ⟨c, rfl, rfl⟩ | ⟨i, pc, s', pc', rfl, hp, hm, rfl⟩
  · intro j q hq k id hk
    rcases Pool.get_concat hq with hq | ⟨-, rfl⟩
    · exact hG j q hq k id hk
    · rw [locked_start] at hk
      cases hk
  · have hkeep := move_guards hm (hG i pc hp)
    intro j q hq k id hk
    rcases Pool.get_set hp hq with ⟨rfl, rfl⟩ | ⟨hj, hq⟩
    · exact hkeep.own k id hk
    · obtain ⟨hg, hs⟩ := hG j q hq k id hk
      obtain ⟨hg', hs'⟩ := hkeep.others k j hj hg
      exact ⟨hg', hs'.trans hs⟩

/-! ## Live versions and their slots -/

/-- The call is still going to check the slot of `id`, or to take `id` out of `by_id`. -/
def Pc.covers (id : Bytes32) : Pc → Bool
  | .early e _ | .earlyDrop e | .addMemory e _ | .addCount e _ | .addSets e _ _ | .finalId e _
  | .finalWinner e _ | .cleanId e => e.isReplaceable && decide (e.id = id)
  | .rmById (.swap _) oldId => decide (oldId = id)
  | _ => false

/-- A live replaceable event holds its slot, unless a call in progress covers it. -/
def SlotInv (P : Config) : Prop :=
  ∀ id x, P.shared.live id = some x → x.isReplaceable = true →
    P.shared.slot x.replacementKey = some id ∨ ∃ pc ∈ P.threads, pc.covers id = true

/-- If the step drops a slot, the holder is not live, or a call in progress covers it. -/
def NoForeignSlotDrop (P : Config) : Act Call → Bool
  | .call _ => true
  | .step i =>
    match P.threads[i]? with
    | some (.rmSlot _ x) =>
      match P.shared.slot x.replacementKey with
      | none => true
      | some id => (P.shared.live id).isNone || P.threads.any (·.covers id)
    | _ => true

/-- What one step of thread `i` does to the live versions and their slots. -/
structure KeepsSlots (P : Config) (pc : Pc) (s' : Shared) (pc' : Pc) : Prop where
  /-- a version that is live now was live before, or this call covers it -/
  live : ∀ id x, s'.live id = some x → x.isReplaceable = true → pc'.covers id = true ∨
    ∃ y, P.shared.live id = some y ∧ y.isReplaceable = true ∧ y.replacementKey = x.replacementKey
  /-- a slot that is lost is lost by an event that is covered or gone -/
  slot : ∀ id k, P.shared.slot k = some id → s'.slot k = some id ∨ pc'.covers id = true ∨
    P.shared.live id = none ∨ ∃ q ∈ P.threads, q.covers id = true
  /-- what the call covered it covers still, or has found right, or has removed -/
  covers : ∀ id x, pc.covers id = true → s'.live id = some x →
    pc'.covers id = true ∨ s'.slot x.replacementKey = some id

theorem SlotInv.of_keeps {P : Config} {i : Nat} {s' : Shared} {pc pc' : Pc}
    (hp : P.threads[i]? = some pc) (hI : SlotInv P) (hk : KeepsSlots P pc s' pc') :
    SlotInv ⟨s', P.threads.set i pc'⟩ := by
  have hmem : pc' ∈ P.threads.set i pc' :=
    List.mem_of_getElem? (Pool.get_set_self pc' hp)
  intro id x hx hr
  -- a call other than thread i that covers the id still does
  have hother : ∀ q ∈ P.threads, q.covers id = true →
      s'.slot x.replacementKey = some id ∨ ∃ q ∈ P.threads.set i pc', q.covers id = true := by
    intro q hq hc
    obtain ⟨j, hj⟩ := List.getElem?_of_mem hq
    by_cases hji : j = i
    · subst hji
      rw [hp] at hj
      cases hj
      rcases hk.covers id x hc hx with h | h
      · exact .inr ⟨pc', hmem, h⟩
      · exact .inl h
    · exact .inr ⟨q, List.mem_of_getElem? ((Pool.get_set_ne pc' hji).trans hj), hc⟩
  rcases hk.live id x hx hr with h | ⟨y, hy, hry, hky⟩
  · exact .inr ⟨pc', hmem, h⟩
  · rcases hI id y hy hry with h | ⟨q, hq, hc⟩
    · rw [hky] at h
      rcases hk.slot id _ h with h | h | h | ⟨q, hq, hc⟩
      · exact .inl h
      · exact .inr ⟨pc', hmem, h⟩
      · rw [hy] at h
        cases h
      · exact hother q hq hc
    · exact hother q hq hc

/-- A step that writes neither `by_id` nor `by_replaceable`. -/
theorem KeepsSlots.of_same {P : Config} {s' : Shared} {pc pc' : Pc}
    (hid : s'.idx.byId = P.shared.idx.byId)
    (hs : s'.idx.byReplaceable = P.shared.idx.byReplaceable)
    (hc : ∀ id x, pc.covers id = true → P.shared.live id = some x →
      pc'.covers id = true ∨ P.shared.slot x.replacementKey = some id) :
    KeepsSlots P pc s' pc' := by
  refine ⟨fun id x hx hr => .inr ⟨x, ?_, hr, rfl⟩, fun id k hk => .inl ?_, fun id x h hx => ?_⟩
  · rwa [Shared.live_congr hid] at hx
  · rwa [Shared.slot_congr hs]
  · rw [Shared.live_congr hid] at hx
    rw [Shared.slot_congr hs]
    exact hc id x h hx

/-- A step that takes one id out of `by_id`, the only one the call covered. -/
theorem KeepsSlots.of_drop {P : Config} {pc pc' : Pc} {id : Bytes32}
    (hc : ∀ id', pc.covers id' = true → id' = id) :
    KeepsSlots P pc { P.shared with idx := P.shared.idx.dropId id } pc' := by
  have hlive : ∀ id' x, Shared.live { P.shared with idx := P.shared.idx.dropId id } id' = some x →
      id' ≠ id ∧ P.shared.live id' = some x := by
    intro id' x hx
    rw [Shared.live_dropId] at hx
    split at hx
    · cases hx
    · rename_i hne
      exact ⟨hne, hx⟩
  refine ⟨fun id' x hx hr => .inr ⟨x, (hlive id' x hx).2, hr, rfl⟩, fun id' k hk => .inl hk, ?_⟩
  intro id' x h hx
  exact absurd (hc id' h) (hlive id' x hx).1

/-- A step that writes a slot only. -/
theorem KeepsSlots.of_slot {P : Config} {s' : Shared} {pc pc' : Pc}
    (hid : s'.idx.byId = P.shared.idx.byId)
    (hs : ∀ id k, P.shared.slot k = some id → s'.slot k = some id ∨ pc'.covers id = true ∨
      P.shared.live id = none ∨ ∃ q ∈ P.threads, q.covers id = true)
    (hc : ∀ id, pc.covers id = false) : KeepsSlots P pc s' pc' := by
  refine ⟨fun id x hx hr => .inr ⟨x, ?_, hr, rfl⟩, hs, fun id x h => ?_⟩
  · rwa [Shared.live_congr hid] at hx
  · rw [hc id] at h
    cases h

/-- What a call covers before and after a step that keeps its event. -/
theorem covers_keep {P : Config} {pc pc' : Pc} (h : ∀ id, pc'.covers id = pc.covers id) (id : Bytes32)
    (x : Event) (hc : pc.covers id = true) (_ : P.shared.live id = some x) :
    pc'.covers id = true ∨ P.shared.slot x.replacementKey = some id :=
  .inl (by rw [h, hc])

theorem covers_none {P : Config} {pc pc' : Pc} (h : ∀ id, pc.covers id = false) (id : Bytes32)
    (x : Event) (hc : pc.covers id = true) (_ : P.shared.live id = some x) :
    pc'.covers id = true ∨ P.shared.slot x.replacementKey = some id := by
  rw [h] at hc
  cases hc

/-- The one id a call covers is not live. -/
theorem covers_gone {P : Config} {pc pc' : Pc} {gone : Bytes32} (honly : ∀ id, pc.covers id = true → id = gone)
    (hgone : P.shared.live gone = none) (id : Bytes32) (x : Event) (hc : pc.covers id = true)
    (hl : P.shared.live id = some x) : pc'.covers id = true ∨ P.shared.slot x.replacementKey = some id := by
  rw [honly id hc, hgone] at hl
  cases hl

theorem eq_of_covers {e : Event} {id : Bytes32} (h : (e.isReplaceable && decide (e.id = id)) = true) :
    id = e.id := by
  simp only [Bool.and_eq_true, decide_eq_true_eq] at h
  exact h.2.symm

/-- Only a removal for a swap covers an id, and it is the one it removes. -/
theorem eq_of_covers_rmById {c : Caller} {id id' : Bytes32} (h : Pc.covers id' (.rmById c id) = true) :
    id' = id := by
  cases c with
  | remove => cases h
  | delete y => cases h
  | swap e => exact (of_decide_eq_true h).symm

/-- The step lemma: one case for each branch of `move`. -/
theorem move_slots {E : Event → Prop}
    (hkey : ∀ a b, E a → E b → a.id = b.id → a.replacementKey = b.replacementKey)
    {P : Config} {i : Nat} {s' : Shared} {pc pc' : Pc} (hp : P.threads[i]? = some pc)
    (h : move i P.shared pc = some (s', pc')) (hE : EventsIn E P) (hG : GuardInv P)
    (hdrop : NoForeignSlotDrop P (.step i) = true) : KeepsSlots P pc s' pc' := by
  have hpcE := hE.events pc (List.mem_of_getElem? hp)
  cases move_cases h with
  | noTombs e h => exact .of_same rfl rfl (covers_none fun _ => rfl)
  | someTombs e h => exact .of_same rfl rfl (covers_none fun _ => rfl)
  | tombed e h => exact .of_same rfl rfl (covers_none fun _ => rfl)
  | untombed e h => exact .of_same rfl rfl (covers_none fun _ => rfl)
  | occupied e oldId hg hs => exact .of_same rfl rfl (covers_none fun _ => rfl)
  | vacant e hg hs =>
    refine .of_slot rfl (fun id k hk => .inl ?_) fun _ => rfl
    have hne : k ≠ e.replacementKey := by
      rintro rfl
      rw [hs] at hk
      cases hk
    rw [Shared.slot_putSlot, if_neg hne]
    exact hk
  | wins e oldId hw => exact .of_same rfl rfl (covers_none fun _ => rfl)
  | loses e oldId hw => exact .of_same rfl rfl (covers_none fun _ => rfl)
  | swaps e oldId =>
    -- the id pushed out of the slot is the one this call removes next
    refine .of_slot rfl (fun id k hk => ?_) fun _ => rfl
    rw [Shared.slot_putSlot]
    split
    · rename_i hke
      have hold : P.shared.slot e.replacementKey = some oldId := (hG i _ hp _ _ rfl).2
      rw [hke, hold] at hk
      cases hk
      exact .inr (.inl (by simp [Pc.covers]))
    · exact .inl hk
  | rmMissing c id hx =>
    exact .of_same (by rw [idx_return]) (by rw [idx_return]) (covers_gone (fun _ => eq_of_covers_rmById) hx)
  | rmFound c id x hx => exact .of_drop fun _ => eq_of_covers_rmById
  | rmMemory c x =>
    exact .of_same (Index.byId_addMemory _ _) (Index.byReplaceable_addMemory _ _) (covers_none fun _ => rfl)
  | rmCountSlot c x h =>
    exact .of_same (Index.byId_addCount _ _) (Index.byReplaceable_addCount _ _) (covers_none fun _ => rfl)
  | rmCountSets c x h =>
    exact .of_same (Index.byId_addCount _ _) (Index.byReplaceable_addCount _ _) (covers_none fun _ => rfl)
  | rmSlot c x hg =>
    refine .of_slot rfl (fun id k hk => ?_) fun _ => rfl
    rw [Shared.slot_dropSlot]
    split
    · rename_i hkx
      simp only [NoForeignSlotDrop, hp, ← hkx, hk, Bool.or_eq_true, Option.isNone_iff_eq_none,
        List.any_eq_true] at hdrop
      exact .inr (.inr hdrop)
    · exact .inl hk
  | rmSet c x b bs => exact .of_same rfl rfl (covers_none fun _ => rfl)
  | rmReturn c x => exact .of_same (by rw [idx_return]) (by rw [idx_return]) (covers_none fun _ => rfl)
  | putDuplicate e r x hx =>
    have hEe : E e := hpcE e (by simp [Pc.events])
    obtain ⟨hEx, hid⟩ := hE.live _ _ hx
    have hkx := hkey x e hEx hEe hid
    refine ⟨fun id y hy hr => .inr ?_, fun id k hk => .inl hk, fun id y hc => by cases hc⟩
    rw [Shared.live_putId] at hy
    split at hy
    · rename_i hide
      cases hy
      exact ⟨x, by rw [hide, hx], (Event.isReplaceable_eq_of_key hkx).trans hr, hkx⟩
    · exact ⟨y, hy, hr, rfl⟩
  | putReplaceable e r hx hr =>
    refine ⟨fun id y hy hry => ?_, fun id k hk => .inl hk, fun id y hc => by cases hc⟩
    rw [Shared.live_putId] at hy
    split at hy
    · rename_i hide
      exact .inl (by simp [Pc.covers, hr, hide])
    · exact .inr ⟨y, hy, hry, rfl⟩
  | putPlain e r hx hr =>
    refine ⟨fun id y hy hry => .inr ?_, fun id k hk => .inl hk, fun id y hc => by cases hc⟩
    rw [Shared.live_putId] at hy
    split at hy
    · cases hy
      rw [hr] at hry
      cases hry
    · exact ⟨y, hy, hry, rfl⟩
  | earlyWin e r hg hs => exact .of_same rfl rfl (covers_keep fun _ => rfl)
  | earlyLose e r hg hs => exact .of_same rfl rfl (covers_keep fun _ => rfl)
  | earlyDrop e => exact .of_drop fun _ => eq_of_covers
  | addMemory e r =>
    exact .of_same (Index.byId_addMemory _ _) (Index.byReplaceable_addMemory _ _) (covers_keep fun _ => rfl)
  | addCount e r =>
    exact .of_same (Index.byId_addCount _ _) (Index.byReplaceable_addCount _ _) (covers_keep fun _ => rfl)
  | addSet e r b bs => exact .of_same rfl rfl (covers_keep fun _ => rfl)
  | addedSets e r => exact .of_same rfl rfl (covers_keep fun _ => rfl)
  | finalMissing e r hx => exact .of_same rfl rfl (covers_gone (fun _ => eq_of_covers) hx)
  | finalPlain e r hr => exact .of_same rfl rfl (covers_none fun _ => by simp [Pc.covers, hr])
  | finalFound e r hr => exact .of_same rfl rfl (covers_keep fun _ => rfl)
  | finalWin e r hg hs =>
    refine .of_same rfl rfl fun id x hc hl => .inr ?_
    obtain ⟨hEx, hid⟩ := hE.live _ _ hl
    rw [hkey x e hEx (hpcE e (by simp [Pc.events])) (hid.trans (eq_of_covers hc)), hs, eq_of_covers hc]
  | finalLose e r hg hs => exact .of_same rfl rfl (covers_keep fun _ => rfl)
  | cleanFound e x hx => exact .of_drop fun _ => eq_of_covers
  | cleanMissing e hx => exact .of_same rfl rfl (covers_gone (fun _ => eq_of_covers) hx)
  | cleanMemory e =>
    exact .of_same (Index.byId_addMemory _ _) (Index.byReplaceable_addMemory _ _) (covers_none fun _ => rfl)
  | cleanCount e =>
    exact .of_same (Index.byId_addCount _ _) (Index.byReplaceable_addCount _ _) (covers_none fun _ => rfl)
  | cleanSet e o b bs => exact .of_same rfl rfl (covers_none fun _ => rfl)
  | cleaned e o => exact .of_same rfl rfl (covers_none fun _ => rfl)
  | tomb _ _ t q hpc₁ hpc₂ =>
    refine .of_same rfl rfl (covers_none fun _ => ?_)
    rcases hpc₁ with ⟨id, r, rfl⟩ | ⟨id, r, rfl⟩ | ⟨r, rfl⟩ | ⟨r, rfl⟩ <;> rfl

theorem SlotInv.step {E : Event → Prop}
    (hkey : ∀ a b, E a → E b → a.id = b.id → a.replacementKey = b.replacementKey)
    {P Q : Config} {a : Act Call} (h : Threads.step P a = some Q) (hE : EventsIn E P)
    (hG : GuardInv P) (hdrop : NoForeignSlotDrop P a = true) (hI : SlotInv P) : SlotInv Q := by
  rcases Pool.step_cases h with ⟨c, rfl, rfl⟩ | ⟨i, pc, s', pc', rfl, hp, hm, rfl⟩
  · intro id x hx hr
    rcases hI id x hx hr with h | ⟨q, hq, hc⟩
    · exact .inl h
    · exact .inr ⟨q, List.mem_append_left _ hq, hc⟩
  · exact hI.of_keeps hp (move_slots hkey hp hm hE hG hdrop)

/-- The run lemma. -/
theorem run_slotInv {as : List (Act Call)}
    (hkey : ∀ a b, Called as a → Called as b → a.id = b.id → a.replacementKey = b.replacementKey)
    {P : Config} (hrun : Machine.run step init as = some P)
    (halong : Machine.Along step (NoForeignSlotDrop · ·) init as) :
    EventsIn (Called as) P ∧ GuardInv P ∧ SlotInv P := by
  refine Machine.run_invariant (I := fun P => EventsIn (Called as) P ∧ GuardInv P ∧ SlotInv P) ?_
    as init P hrun (Machine.along_and_mem as init halong)
        ⟨eventsIn_init _, fun i pc h => by simp [init] at h, fun id x h => by cases h⟩
  rintro P a Q h ⟨hdrop, ha⟩ ⟨hE, hG, hI⟩
  exact ⟨hE.step h fun e he => by rw [Called, ← he]; exact ha, hG.step h, hI.step hkey h hE hG hdrop⟩

/-- No two live events have the same replacement key. -/
def UniqueVersions (s : Index) : Prop :=
  ∀ x ∈ s.byId.values, ∀ y ∈ s.byId.values, x.replacementKey ≠ .none →
    x.replacementKey = y.replacementKey → x = y

/-- **One live version for each key.**  In every interleaving in which no
`delete_by_id` drops the slot of a live event that nobody will check again, no
two live events share a replacement key once no call is in progress. -/
theorem quiescent_unique (as : List (Act Call))
    (hkey : ∀ a b, Called as a → Called as b → a.id = b.id → a.replacementKey = b.replacementKey)
    (P : Config) (hrun : Machine.run step init as = some P)
    (halong : Machine.Along step (NoForeignSlotDrop · ·) init as) (hq : Quiescent P) :
    UniqueVersions P.shared.idx := by
  obtain ⟨-, -, hI⟩ := run_slotInv hkey hrun halong
  have hslot : ∀ id x, P.shared.live id = some x → x.replacementKey ≠ .none →
      P.shared.slot x.replacementKey = some id := by
    intro id x hx hk
    have hr : x.isReplaceable = true := by
      rw [Ne, Event.replacementKey_eq_none_iff] at hk
      simpa using hk
    rcases hI id x hx hr with h | ⟨pc, hpc, hc⟩
    · exact h
    · obtain ⟨r, rfl⟩ := hq pc hpc
      cases hc
  intro x hx y hy hk hxy
  obtain ⟨idx, hx⟩ := Table.mem_values_iff.1 hx
  obtain ⟨idy, hy⟩ := Table.mem_values_iff.1 hy
  have h1 := hslot idx x hx hk
  have h2 := hslot idy y hy (hxy ▸ hk)
  rw [← hxy, h1] at h2
  cases h2
  rw [hx] at hy
  exact Option.some.inj hy

/-- A is stored; its deletion takes it out of `by_id`; B takes the slot over and
is stored; the deletion drops the slot, which is B's; C finds the slot vacant. -/
def slotStolen : List (Act Call) :=
  [.call (.insert versionA)] ++ steps 0 12 ++ [.call (.deleteById versionA.id)] ++ steps 1 3 ++
    [.call (.insert versionB)] ++ steps 2 15 ++ steps 1 9 ++ [.call (.insert versionC)] ++ steps 3 13

/-- The three versions are of one key. -/
theorem key_eq_of_versions {a b : Event} (ha : a = versionA ∨ a = versionB ∨ a = versionC)
    (hb : b = versionA ∨ b = versionB ∨ b = versionC) : a.replacementKey = b.replacementKey := by
  have hAB : versionA.replacementKey = versionB.replacementKey := by decide
  have hBC : versionB.replacementKey = versionC.replacementKey := by decide
  have hone : ∀ e, e = versionA ∨ e = versionB ∨ e = versionC → e.replacementKey = versionB.replacementKey := by
    rintro e (rfl | rfl | rfl)
    · exact hAB
    · rfl
    · exact hBC.symm
  rw [hone a ha, hone b hb]

theorem called_slotStolen {e : Event} (h : Called slotStolen e) :
    e = versionA ∨ e = versionB ∨ e = versionC := by
  simpa [slotStolen, steps, called_iff] using h

theorem slotStolen_two_versions :
    (∀ a b, Called slotStolen a → Called slotStolen b → a.id = b.id →
      a.replacementKey = b.replacementKey) ∧
    ∃ P, Machine.run step init slotStolen = some P ∧ Quiescent P ∧ ¬ UniqueVersions P.shared.idx := by
  refine ⟨fun a b ha hb _ => ?_, ?_⟩
  · exact key_eq_of_versions (called_slotStolen ha) (called_slotStolen hb)
  · obtain ⟨P, hP, h⟩ := Machine.exists_run step init slotStolen (fun P => decide (Quiescent P ∧
      ∃ x ∈ P.shared.idx.byId.values, ∃ y ∈ P.shared.idx.byId.values, x.replacementKey ≠ .none ∧
        x.replacementKey = y.replacementKey ∧ x.id ≠ y.id)) (by decide +kernel)
    obtain ⟨hq, x, hx, y, hy, hk, hxy, hne⟩ := of_decide_eq_true h
    exact ⟨P, hP, hq, fun hu => hne (by rw [hu x hx y hy hk hxy])⟩

/-- The same calls, which overlap; the deletion gives the slot up before B takes it. -/
def slotReleased : List (Act Call) :=
  [.call (.insert versionA)] ++ steps 0 12 ++
    [.call (.deleteById versionA.id), .call (.insert versionB), .call (.insert versionC)] ++ steps 1 4 ++
        steps 2 7 ++
    steps 3 6 ++ steps 1 8 ++ steps 2 8 ++ steps 3 15

theorem quiescent_unique_slotReleased :
    ∃ P, Machine.run step init slotReleased = some P ∧ Quiescent P ∧ UniqueVersions P.shared.idx := by
  obtain ⟨P, hP, h⟩ := Machine.exists_run step init slotReleased (fun P => decide (Quiescent P))
    (by decide +kernel)
  have hq := of_decide_eq_true h
  refine ⟨P, hP, hq, quiescent_unique _ (fun a b ha hb _ => ?_) P hP (by decide +kernel) hq⟩
  have hcall : ∀ e, Called slotReleased e → e = versionA ∨ e = versionB ∨ e = versionC := by
    intro e he
    simpa [slotReleased, steps, called_iff] using he
  exact key_eq_of_versions (hcall a ha) (hcall b hb)

end Threads
end Memlay

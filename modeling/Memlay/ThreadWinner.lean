import Memlay.ThreadSlots

/-!
# Concurrent versions of one replaceable event

Any number of inserts of distinct versions of one replaceable event into an
empty index, in any interleaving.  Each call publishes its id in the slot of the
key, stores its event and checks the slot (`Phase`).  Once all calls have
returned exactly one version is live, the one in the slot (`quiescent_holder`).

That version need not be the winner.  The id of the winner stands in the slot
before the winner is in `by_id`; a call that finds it there in between takes the
slot over as if the winner had been removed, and the winner gives up at its own
check.  Nothing else can push the winner out:

    the one live version is the winner  ↔  no call looks the winner up too early   (winner_live_iff)
-/

namespace Memlay
namespace Threads

open Pool

/-- The calls of `es`, none of which has taken a step, on an index without events. -/
def racing (t : Tombstones) (es : List Event) : Config :=
  ⟨{ Shared.new with idx := { Index.new with tombstones := t } }, es.map .insert⟩

/-- Distinct versions of one replaceable event, none of them deleted. -/
structure Race (t : Tombstones) (es : List Event) (k : ReplacementKey) : Prop where
  ids : (es.map (·.id)).Nodup
  key : ∀ e ∈ es, e.replacementKey = k
  replaceable : k ≠ .none
  untombed : ∀ e ∈ es, t.contains e.id = false

/-- The NIP-01 winner: greatest `created_at`, ties broken by the smallest id. -/
def IsWinner (w : Event) (es : List Event) : Prop := w ∈ es ∧ ∀ e ∈ es, e ≠ w → Event.Beats w e

/-! ## The phases of an insert -/

inductive Phase where
  /-- the slot does not have the id yet -/
  | before
  /-- the slot has had the id, `by_id` has not -/
  | publishing
  | checking
  /-- the slot was found taken, the event is about to be removed -/
  | dropping
  | ended
deriving DecidableEq

def Pc.phase : Pc → Phase
  | .insert _ | .insertTomb _ | .entry _ | .getOld _ _ | .swapSlot _ _ => .before
  | .rmById _ _ | .rmMemory _ _ | .rmCount _ _ | .rmSlot _ _ | .rmSets _ _ _ | .byId _ _ => .publishing
  | .early _ _ | .addMemory _ _ | .addCount _ _ | .addSets _ _ _ | .finalId _ _ | .finalWinner _ _ =>
    .checking
  | .earlyDrop _ | .cleanId _ => .dropping
  | .cleanMemory _ | .cleanCount _ | .cleanSets _ _ _ | .tombPut _ _ | .tombPush _ _ | .tombEvict _
  | .tombStore _ | .done _ => .ended

/-- The call at `pc` is an insert of `e`. -/
def Owned (t : Tombstones) (e : Event) : Pc → Prop
  | .insert x | .entry x | .getOld x _ | .swapSlot x _ | .byId x _ | .early x _ | .earlyDrop x
  | .addMemory x _ | .addCount x _ | .addSets x _ _ | .finalId x _ | .finalWinner x _ | .cleanId x
  | .cleanMemory x | .cleanCount x | .cleanSets x _ _ => x = e
  | .insertTomb x => x = e ∧ t.count ≠ 0
  | .rmById c _ | .rmMemory c _ | .rmCount c _ | .rmSets c _ _ => c = .swap e
  | .rmSlot _ _ | .tombPut _ _ | .tombPush _ _ | .tombEvict _ | .tombStore _ => False
  | .done _ => True

/-- What the slot and `by_id` say about `e` in each phase of its insert. -/
def Stage (k : ReplacementKey) (e : Event) (s : Shared) : Phase → Prop
  | .before => s.slot k ≠ some e.id ∧ s.live e.id = none
  | .publishing => s.slot k ≠ none ∧ s.live e.id = none
  | .dropping => s.slot k ≠ none ∧ s.slot k ≠ some e.id
  | .checking | .ended => s.slot k ≠ none ∧ (s.slot k = some e.id → s.live e.id = some e)

/-- What one step of the insert of `e` does to the slot of the key and to the
other versions. -/
structure Raced (t : Tombstones) (k : ReplacementKey) (e : Event) (s : Shared) (pc : Pc)
    (s' : Shared) (pc' : Pc) : Prop where
  owned : Owned t e pc'
  tombs : s'.idx.tombstones = t
  stage : Stage k e s' pc'.phase
  phase : pc.phase ≠ .before → pc'.phase ≠ .before
  /-- the call publishes its id, or has lost against the holder -/
  leave : pc.phase = .before → pc'.phase ≠ .before → s'.slot k = some e.id ∨
    ∃ oldId, s.slot k = some oldId ∧ s.idx.incomingWins e oldId = false
  /-- the slot is written when it is vacant, or over the id that was looked up -/
  slot : s'.slot k = s.slot k ∨ s'.slot k = some e.id ∧ pc.phase = .before ∧
    (s.slot k = none ∨ ∃ oldId, pc = .swapSlot e oldId ∧ s.slot k = some oldId)
  /-- another version is taken out of `by_id` only by the holder of the slot -/
  live : ∀ id, id ≠ e.id → s'.live id = s.live id ∨
    s'.live id = none ∧ s.slot k = some e.id ∧ s'.slot k = some e.id

theorem Raced.of_same {t : Tombstones} {k : ReplacementKey} {e : Event} {s s' : Shared} {pc pc' : Pc}
    (ho : Owned t e pc') (ht : s.idx.tombstones = t) (hid : s'.idx.byId = s.idx.byId)
    (hs : s'.idx.byReplaceable = s.idx.byReplaceable) (ht' : s'.idx.tombstones = s.idx.tombstones)
    (hst : Stage k e s pc'.phase) (hph : pc'.phase = .before ↔ pc.phase = .before) :
    Raced t k e s pc s' pc' := by
  refine ⟨ho, ht'.trans ht, ?_, fun h h' => h (hph.1 h'), fun h h' => absurd (hph.2 h) h',
    .inl (Shared.slot_congr hs k), fun id _ => .inl (Shared.live_congr hid id)⟩
  revert hst
  cases pc'.phase <;> simp only [Stage, Shared.slot_congr hs k, Shared.live_congr hid e.id] <;> exact id

/-- A step that takes `id` out of `by_id` and leaves the slots alone. -/
theorem Raced.of_drop {t : Tombstones} {k : ReplacementKey} {e : Event} {s : Shared} {pc pc' : Pc}
    {id : Bytes32} (ho : Owned t e pc') (ht : s.idx.tombstones = t)
    (hst : Stage k e { s with idx := s.idx.dropId id } pc'.phase) (hph : pc.phase ≠ .before)
    (hph' : pc'.phase ≠ .before) (hid : id = e.id ∨ s.slot k = some e.id) :
    Raced t k e s pc { s with idx := s.idx.dropId id } pc' := by
  refine ⟨ho, ht, hst, fun _ => hph', fun h => absurd h hph, .inl rfl, fun x hx => ?_⟩
  rw [Shared.live_dropId]
  split
  · rename_i hxid
    rcases hid with hid | hid
    · exact absurd (hxid.trans hid) hx
    · exact .inr ⟨rfl, hid, hid⟩
  · exact .inl rfl

/-- A step that puts the id of `e` in the slot. -/
theorem Raced.of_publish {t : Tombstones} {k : ReplacementKey} {e : Event} {s : Shared} {pc pc' : Pc}
    (ho : Owned t e pc') (ht : s.idx.tombstones = t) (hk : e.replacementKey = k)
    (hph : pc.phase = .before) (hph' : pc'.phase = .publishing) (hl : s.live e.id = none)
    (hs : s.slot k = none ∨ ∃ oldId, pc = .swapSlot e oldId ∧ s.slot k = some oldId) :
    Raced t k e s pc { s with idx := s.idx.putSlot e.replacementKey e.id } pc' := by
  have hslot : Shared.slot { s with idx := s.idx.putSlot e.replacementKey e.id } k = some e.id := by
    rw [Shared.slot_putSlot, if_pos hk.symm]
  refine ⟨ho, ht, ?_, fun _ => by rw [hph']; exact nofun, fun _ _ => .inl hslot,
    .inr ⟨hslot, hph, hs⟩, fun id _ => .inl rfl⟩
  rw [hph']
  exact ⟨by rw [hslot]; exact nofun, hl⟩

/-- The step lemma of an insert of `e`: one case for each branch of `move`. -/
theorem move_race {t : Tombstones} {k : ReplacementKey} {e : Event} (hk : e.replacementKey = k)
    (hr : e.isReplaceable = true) (hunt : t.contains e.id = false) {i : Nat} {s s' : Shared}
    {pc pc' : Pc} (hm : move i s pc = some (s', pc')) (ho : Owned t e pc)
    (ht : s.idx.tombstones = t) (hst : Stage k e s pc.phase)
    (hlock : ∀ k id, pc.locked = some (k, id) → s.guard k = some i ∧ s.slot k = some id) :
    Raced t k e s pc s' pc' := by
  have hafter : afterTombs e = .entry e := by rw [afterTombs, if_pos hr]
  cases move_cases hm with
  | noTombs x h =>
    obtain rfl : x = e := ho
    rw [hafter]
    exact .of_same rfl ht rfl rfl rfl hst Iff.rfl
  | someTombs x h =>
    obtain rfl : x = e := ho
    exact .of_same ⟨rfl, by rwa [ht] at h⟩ ht rfl rfl rfl hst Iff.rfl
  | tombed x h =>
    obtain ⟨rfl, hc⟩ := ho
    rw [ht] at h
    simp [Tombstones.contains, hc, h] at hunt
  | untombed x h =>
    obtain ⟨rfl, -⟩ := ho
    rw [hafter]
    exact .of_same rfl ht rfl rfl rfl hst Iff.rfl
  | occupied x oldId hg hs =>
    obtain rfl : x = e := ho
    exact .of_same rfl ht rfl rfl rfl hst Iff.rfl
  | vacant x hg hs =>
    obtain rfl : x = e := ho
    rw [hk] at hs
    exact .of_publish rfl ht hk rfl rfl hst.2 (.inl hs)
  | wins x oldId hw =>
    obtain rfl : x = e := ho
    exact .of_same rfl ht rfl rfl rfl hst Iff.rfl
  | loses x oldId hw =>
    obtain rfl : x = e := ho
    have hs := (hlock _ _ rfl).2
    rw [hk] at hs
    refine ⟨trivial, ht, ⟨?_, fun h => absurd h hst.1⟩, fun _ => nofun, fun _ _ => .inr ⟨oldId, hs, hw⟩,
      .inl rfl, fun id _ => .inl rfl⟩
    show s.slot k ≠ none
    rw [hs]
    exact nofun
  | swaps x oldId =>
    obtain rfl : x = e := ho
    have hs := (hlock _ _ rfl).2
    rw [hk] at hs
    exact .of_publish rfl ht hk rfl rfl hst.2 (.inr ⟨oldId, rfl, hs⟩)
  | rmMissing c id h =>
    obtain rfl : c = .swap e := ho
    exact .of_same rfl ht rfl rfl rfl hst ⟨nofun, nofun⟩
  | rmFound c id x hx =>
    obtain rfl : c = .swap e := ho
    have hs := (hlock _ _ rfl).2
    rw [hk] at hs
    refine .of_drop rfl ht ⟨hst.1, ?_⟩ nofun nofun (.inr hs)
    rw [Shared.live_dropId, hst.2]
    split <;> rfl
  | rmMemory c x =>
    exact .of_same ho ht (Index.byId_addMemory _ _) (Index.byReplaceable_addMemory _ _)
      (Index.tombstones_addMemory _ _) hst ⟨nofun, nofun⟩
  | rmCountSlot c x h =>
    obtain rfl : c = .swap e := ho
    cases h
  | rmCountSets c x h =>
    exact .of_same ho ht (Index.byId_addCount _ _) (Index.byReplaceable_addCount _ _)
      (Index.tombstones_addCount _ _) hst ⟨nofun, nofun⟩
  | rmSlot c x hg => exact ho.elim
  | rmSet c x b bs => exact .of_same ho ht rfl rfl rfl hst ⟨nofun, nofun⟩
  | rmReturn c x =>
    obtain rfl : c = .swap e := ho
    exact .of_same rfl ht rfl rfl rfl hst ⟨nofun, nofun⟩
  | putDuplicate x r y hy =>
    obtain rfl : x = e := ho
    rw [hst.2] at hy
    cases hy
  | putReplaceable x r hx hr' =>
    obtain rfl : x = e := ho
    refine ⟨rfl, ht, ⟨hst.1, fun _ => ?_⟩, fun _ => nofun, fun h => (by cases h), .inl rfl,
      fun id hid => .inl ?_⟩
    · rw [Shared.live_putId, if_pos rfl]
    · rw [Shared.live_putId, if_neg hid]
  | putPlain x r hx hr' =>
    obtain rfl : x = e := ho
    rw [hr] at hr'
    cases hr'
  | earlyWin x r hg hs => exact .of_same ho ht rfl rfl rfl hst ⟨nofun, nofun⟩
  | earlyLose x r hg hs =>
    obtain rfl : x = e := ho
    rw [hk] at hs
    exact .of_same rfl ht rfl rfl rfl ⟨hst.1, hs⟩ ⟨nofun, nofun⟩
  | earlyDrop x =>
    obtain rfl : x = e := ho
    exact .of_drop trivial ht ⟨hst.1, fun h => absurd h hst.2⟩ nofun nofun (.inl rfl)
  | addMemory x r =>
    exact .of_same ho ht (Index.byId_addMemory _ _) (Index.byReplaceable_addMemory _ _)
      (Index.tombstones_addMemory _ _) hst ⟨nofun, nofun⟩
  | addCount x r =>
    exact .of_same ho ht (Index.byId_addCount _ _) (Index.byReplaceable_addCount _ _)
      (Index.tombstones_addCount _ _) hst ⟨nofun, nofun⟩
  | addSet x r b bs => exact .of_same ho ht rfl rfl rfl hst ⟨nofun, nofun⟩
  | addedSets x r => exact .of_same ho ht rfl rfl rfl hst ⟨nofun, nofun⟩
  | finalMissing x r h => exact .of_same ho ht rfl rfl rfl hst ⟨nofun, nofun⟩
  | finalPlain x r h => exact .of_same trivial ht rfl rfl rfl hst ⟨nofun, nofun⟩
  | finalFound x r h => exact .of_same ho ht rfl rfl rfl hst ⟨nofun, nofun⟩
  | finalWin x r hg hs => exact .of_same trivial ht rfl rfl rfl hst ⟨nofun, nofun⟩
  | finalLose x r hg hs =>
    obtain rfl : x = e := ho
    rw [hk] at hs
    exact .of_same rfl ht rfl rfl rfl ⟨hst.1, hs⟩ ⟨nofun, nofun⟩
  | cleanFound x y hx =>
    obtain rfl : x = e := ho
    exact .of_drop rfl ht ⟨hst.1, fun h => absurd h hst.2⟩ nofun nofun (.inl rfl)
  | cleanMissing x h =>
    exact .of_same ho ht rfl rfl rfl ⟨hst.1, fun h => absurd h hst.2⟩ ⟨nofun, nofun⟩
  | cleanMemory x =>
    exact .of_same ho ht (Index.byId_addMemory _ _) (Index.byReplaceable_addMemory _ _)
      (Index.tombstones_addMemory _ _) hst ⟨nofun, nofun⟩
  | cleanCount x =>
    exact .of_same ho ht (Index.byId_addCount _ _) (Index.byReplaceable_addCount _ _)
      (Index.tombstones_addCount _ _) hst ⟨nofun, nofun⟩
  | cleanSet x o b bs => exact .of_same ho ht rfl rfl rfl hst ⟨nofun, nofun⟩
  | cleaned x o => exact .of_same trivial ht rfl rfl rfl hst ⟨nofun, nofun⟩
  | tomb _ _ t' q hpc₁ hpc₂ =>
    rcases hpc₁ with ⟨id, r, rfl⟩ | ⟨id, r, rfl⟩ | ⟨r, rfl⟩ | ⟨r, rfl⟩ <;> exact ho.elim

/-! ## All inserts together -/

theorem Raced.slot_ne_none {t : Tombstones} {k : ReplacementKey} {e : Event} {s s' : Shared}
    {pc pc' : Pc} (h : Raced t k e s pc s' pc') (hs : s.slot k ≠ none) : s'.slot k ≠ none := by
  rcases h.slot with h | ⟨h, -⟩
  · rwa [h]
  · rw [h]
    exact nofun

/-- The slot gets no id but that of the call itself. -/
theorem Raced.slot_of_ne {t : Tombstones} {k : ReplacementKey} {e x : Event} {s s' : Shared}
    {pc pc' : Pc} (h : Raced t k e s pc s' pc') (hx : x.id ≠ e.id) (hs : s'.slot k = some x.id) :
    s.slot k = some x.id := by
  rcases h.slot with h | ⟨h, -⟩
  · rwa [← h]
  · rw [h] at hs
    exact absurd (Option.some.inj hs).symm hx

/-- What is known of the other versions stays true. -/
theorem Raced.stage_of_ne {t : Tombstones} {k : ReplacementKey} {e x : Event} {s s' : Shared}
    {pc pc' : Pc} (h : Raced t k e s pc s' pc') (hx : x.id ≠ e.id) {ph : Phase}
    (hst : Stage k x s ph) : Stage k x s' ph := by
  have hnone : s.live x.id = none → s'.live x.id = none := by
    intro hl
    rcases h.live x.id hx with h | ⟨h, -⟩
    · rwa [h]
    · exact h
  have hheld : (s.slot k = some x.id → s.live x.id = some x) →
      s'.slot k = some x.id → s'.live x.id = some x := by
    intro hl hs
    have hs₀ := h.slot_of_ne hx hs
    rcases h.live x.id hx with h | ⟨-, h, -⟩
    · rw [h]
      exact hl hs₀
    · rw [hs₀] at h
      exact absurd (Option.some.inj h) hx
  cases ph with
  | before => exact ⟨fun hs => hst.1 (h.slot_of_ne hx hs), hnone hst.2⟩
  | publishing => exact ⟨h.slot_ne_none hst.1, hnone hst.2⟩
  | checking => exact ⟨h.slot_ne_none hst.1, hheld hst.2⟩
  | dropping => exact ⟨h.slot_ne_none hst.1, fun hs => hst.2 (h.slot_of_ne hx hs)⟩
  | ended => exact ⟨h.slot_ne_none hst.1, hheld hst.2⟩

section
variable {t : Tombstones} {es : List Event} {k : ReplacementKey}

theorem Race.index (hR : Race t es k) {i j : Nat} {a b : Event} (ha : es[i]? = some a)
    (hb : es[j]? = some b) (h : a.id = b.id) : i = j := by
  have ha' : (es.map (·.id))[i]? = some a.id := by rw [List.getElem?_map, ha]; rfl
  have hb' : (es.map (·.id))[j]? = some a.id := by rw [List.getElem?_map, hb, h]; rfl
  obtain ⟨hi, hia⟩ := List.getElem?_eq_some_iff.1 ha'
  obtain ⟨hj, hjb⟩ := List.getElem?_eq_some_iff.1 hb'
  exact (List.Nodup.getElem_inj_iff hR.ids).1 (hia.trans hjb.symm)

theorem Race.isReplaceable (hR : Race t es k) {e : Event} (he : e ∈ es) : e.isReplaceable = true := by
  have := hR.replaceable
  rw [← hR.key e he, Ne, Event.replacementKey_eq_none_iff] at this
  simpa using this

structure RaceInv (t : Tombstones) (es : List Event) (k : ReplacementKey) (P : Config) : Prop where
  guards : GuardInv P
  events : EventsIn (· ∈ es) P
  slots : SlotInv P
  tombs : P.shared.idx.tombstones = t
  length : P.threads.length = es.length
  owned : ∀ (i : Nat) e pc, es[i]? = some e → P.threads[i]? = some pc →
    Owned t e pc ∧ Stage k e P.shared pc.phase
  holder : ∀ id, P.shared.slot k = some id → ∃ e ∈ es, e.id = id

theorem raceInv_racing : RaceInv t es k (racing t es) where
  guards i pc hpc k id hk := by
    obtain ⟨e, -, rfl⟩ := List.mem_map.1 (List.mem_of_getElem? hpc)
    cases hk
  events := by
    refine ⟨fun id x h => (by cases h), fun pc hpc x hx => ?_⟩
    obtain ⟨e, he, rfl⟩ := List.mem_map.1 hpc
    rw [List.mem_singleton.1 hx]
    exact he
  slots id x h := by cases h
  tombs := rfl
  length := List.length_map ..
  owned i e pc he hpc := by
    have : (es.map Pc.insert)[i]? = some pc := hpc
    rw [List.getElem?_map, he] at this
    cases this
    exact ⟨rfl, nofun, rfl⟩
  holder id h := by cases h

/-- A step of the pool is a step of the insert of one version. -/
theorem RaceInv.raced (hR : Race t es k) {P : Config} (hI : RaceInv t es k P) {i : Nat} {pc pc' : Pc}
    {s' : Shared} (hp : P.threads[i]? = some pc) (hm : move i P.shared pc = some (s', pc')) :
    ∃ e, es[i]? = some e ∧ Owned t e pc ∧ Stage k e P.shared pc.phase ∧
      Raced t k e P.shared pc s' pc' := by
  obtain ⟨hlt, -⟩ := List.getElem?_eq_some_iff.1 hp
  rw [hI.length] at hlt
  have he : es[i]? = some es[i] := List.getElem?_eq_getElem hlt
  have hmem : es[i] ∈ es := List.getElem_mem hlt
  obtain ⟨ho, hst⟩ := hI.owned i _ pc he hp
  exact ⟨es[i], he, ho, hst, move_race (hR.key _ hmem) (hR.isReplaceable hmem)
    (hR.untombed _ hmem) hm ho hI.tombs hst (hI.guards i pc hp)⟩

theorem RaceInv.step (hR : Race t es k) {P Q : Config} {i : Nat}
    (h : Threads.step P (.step i) = some Q) (hI : RaceInv t es k P) : RaceInv t es k Q := by
  rcases Pool.step_cases h with ⟨c, hc, -⟩ | ⟨j, pc, s', pc', hj, hp, hm, rfl⟩
  · cases hc
  cases hj
  obtain ⟨e, he, ho, -, hr⟩ := hI.raced hR hp hm
  have hkey : ∀ a b, a ∈ es → b ∈ es → a.id = b.id → a.replacementKey = b.replacementKey :=
    fun a b ha hb _ => (hR.key a ha).trans (hR.key b hb).symm
  have hdrop : NoForeignSlotDrop P (.step i) = true := by
    unfold NoForeignSlotDrop
    simp only [hp]
    cases pc with
    | rmSlot c x => exact ho.elim
    | _ => rfl
  refine ⟨hI.guards.step h, hI.events.step h (fun x hx => by cases hx),
    hI.slots.step hkey h hI.events hI.guards hdrop, hr.tombs, ?_, ?_, ?_⟩
  · rw [List.length_set, hI.length]
  · intro j x q hx hq
    rcases Pool.get_set hp hq with ⟨rfl, rfl⟩ | ⟨hji, hq⟩
    · rw [he] at hx
      cases hx
      exact ⟨hr.owned, hr.stage⟩
    · obtain ⟨hox, hstx⟩ := hI.owned j x q hx hq
      exact ⟨hox, hr.stage_of_ne (fun hid => hji (hR.index hx he hid)) hstx⟩
  · intro id hs
    rcases hr.slot with h | ⟨h, -⟩
    · exact hI.holder id (h ▸ hs)
    · rw [h] at hs
      cases hs
      exact ⟨e, List.mem_of_getElem? he, rfl⟩

/-- The run lemma, for any invariant on top of `RaceInv`. -/
theorem run_race (hR : Race t es k) {I : Config → Prop} {C : Config → Act Call → Prop}
    (hstep : ∀ P Q i, RaceInv t es k P → C P (.step i) → Threads.step P (.step i) = some Q → I P → I Q)
    {sched : List Nat} {P Q : Config} (hrun : Machine.run step P (sched.map .step) = some Q)
    (halong : Machine.Along step C P (sched.map .step)) (hI : RaceInv t es k P) (hP : I P) :
    RaceInv t es k Q ∧ I Q := by
  refine Machine.run_invariant (I := fun P => RaceInv t es k P ∧ I P) ?_ _ P Q hrun
    (Machine.along_and_mem _ P halong) ⟨hI, hP⟩
  rintro P a Q h ⟨hC, ha⟩ ⟨hI, hP⟩
  obtain ⟨i, -, rfl⟩ := List.mem_map.1 ha
  exact ⟨hI.step hR h, hstep P Q i hI hC h hP⟩

theorem run_raceInv (hR : Race t es k) {sched : List Nat} {P : Config}
    (hrun : Machine.run step (racing t es) (sched.map .step) = some P) : RaceInv t es k P :=
  (run_race (I := fun _ => True) (C := fun _ _ => True) hR (fun _ _ _ _ _ _ _ => trivial) hrun
    (Machine.along_of_forall _ _ fun _ _ _ => trivial) raceInv_racing trivial).1

/-- Once all calls have returned, the holder of the slot is the one live event. -/
theorem quiescent_holder (hR : Race t es k) {P : Config} (hI : RaceInv t es k P) (hq : Quiescent P)
    {w : Event} (hw : w ∈ es) :
    (∀ x, x ∈ P.shared.idx.byId.values ↔ x = w) ↔ P.shared.slot k = some w.id := by
  have hlive : ∀ x, x ∈ P.shared.idx.byId.values → x ∈ es ∧ P.shared.slot k = some x.id := by
    intro x hx
    obtain ⟨id, hx⟩ := Table.mem_values_iff.1 hx
    obtain ⟨hxe, rfl⟩ := hI.events.live id x hx
    refine ⟨hxe, ?_⟩
    rcases hI.slots _ x hx (hR.isReplaceable hxe) with h | ⟨pc, hpc, hc⟩
    · rwa [hR.key x hxe] at h
    · obtain ⟨r, rfl⟩ := hq pc hpc
      cases hc
  constructor
  · exact fun h => (hlive w ((h w).2 rfl)).2
  · intro hs x
    constructor
    · intro hx
      obtain ⟨hxe, hsx⟩ := hlive x hx
      rw [hs] at hsx
      obtain ⟨i, hi⟩ := List.getElem?_of_mem hxe
      obtain ⟨j, hj⟩ := List.getElem?_of_mem hw
      have := hR.index hi hj (Option.some.inj hsx).symm
      subst this
      rw [hi] at hj
      exact Option.some.inj hj
    · rintro rfl
      obtain ⟨i, hi⟩ := List.getElem?_of_mem hw
      obtain ⟨hlt, -⟩ := List.getElem?_eq_some_iff.1 hi
      rw [← hI.length] at hlt
      obtain ⟨r, hr⟩ := hq _ (List.getElem_mem hlt)
      have hst := (hI.owned i _ _ hi (List.getElem?_eq_getElem hlt)).2
      rw [hr] at hst
      exact Table.mem_values_iff.2 ⟨_, hst.2 hs⟩

/-! ## Whether the winner keeps the slot -/

/-- If the step looks the holder up and the holder is `w`, it finds `w` in `by_id`. -/
def SeesWinner (w : Event) (P : Config) : Act Call → Bool
  | .call _ => true
  | .step i =>
    match P.threads[i]? with
    | some (.getOld _ oldId) => decide (oldId ≠ w.id) || (P.shared.live w.id).isSome
    | _ => true

/-- Once published the winner stands in the slot, and nobody is about to take it over. -/
structure Kept (es : List Event) (k : ReplacementKey) (w : Event) (P : Config) : Prop where
  slot : ∀ (i : Nat) pc, es[i]? = some w → P.threads[i]? = some pc → pc.phase ≠ .before →
    P.shared.slot k = some w.id
  noSwap : ∀ pc ∈ P.threads, ∀ e, pc ≠ .swapSlot e w.id

/-- A call takes the slot of the winner over, or has. -/
def Lost (es : List Event) (k : ReplacementKey) (w : Event) (P : Config) : Prop :=
  (∃ pc ∈ P.threads, ∃ e, pc = .swapSlot e w.id) ∨
    ∃ (i : Nat) (pc : Pc), es[i]? = some w ∧ P.threads[i]? = some pc ∧ pc.phase ≠ .before ∧
      P.shared.slot k ≠ some w.id

theorem kept_racing {w : Event} : Kept es k w (racing t es) where
  slot i pc _ hpc hph := by
    obtain ⟨e, -, rfl⟩ := List.mem_map.1 (List.mem_of_getElem? hpc)
    exact absurd rfl hph
  noSwap pc hpc e := by
    obtain ⟨x, -, rfl⟩ := List.mem_map.1 hpc
    exact nofun

/-- A competitor of the winner does not win against it where it is stored. -/
theorem not_incomingWins {P : Config} (hI : RaceInv t es k P) {w e : Event} (hw : IsWinner w es)
    (he : e ∈ es) (hne : e ≠ w) (hl : P.shared.live w.id ≠ none) (hR : Race t es k) :
    P.shared.idx.incomingWins e w.id = false := by
  obtain ⟨y, hy⟩ := Option.ne_none_iff_exists'.1 hl
  obtain ⟨hye, hid⟩ := hI.events.live _ _ hy
  obtain ⟨i, hi⟩ := List.getElem?_of_mem hye
  obtain ⟨j, hj⟩ := List.getElem?_of_mem hw.1
  have hij := hR.index hi hj hid
  rw [hij, hj] at hi
  cases hi
  have hy' : P.shared.idx.byId.lookup w.id = some w := hy
  unfold Index.incomingWins
  rw [hy']
  exact decide_eq_false (hw.2 e he hne).asymm

theorem incomingWins_winner {P : Config} (hI : RaceInv t es k P) {w : Event} (hw : IsWinner w es)
    {oldId : Bytes32} (hne : oldId ≠ w.id) : P.shared.idx.incomingWins w oldId = true := by
  unfold Index.incomingWins
  split
  · rename_i y hy
    obtain ⟨hye, rfl⟩ := hI.events.live _ _ hy
    exact decide_eq_true (hw.2 y hye fun h => hne (by rw [h]))
  · rfl

/-- The only way to a swap is a lookup that was won. -/
theorem getOld_of_swapSlot {i : Nat} {s s' : Shared} {pc : Pc} {x : Event} {id : Bytes32}
    (hm : move i s pc = some (s', .swapSlot x id)) :
    pc = .getOld x id ∧ s.idx.incomingWins x id = true := by
  have hafter : ∀ e, Pc.swapSlot x id ≠ afterTombs e := by
    intro e
    unfold afterTombs
    split <;> exact nofun
  have hreturn : ∀ r c, Pc.swapSlot x id ≠ (return' s r c).2 := by
    intro r c
    cases c <;> exact nofun
  generalize hq : Pc.swapSlot x id = q at hm hafter hreturn
  cases move_cases hm with
  | wins e oldId hw =>
    cases hq
    exact ⟨rfl, hw⟩
  | noTombs e h => exact absurd rfl (hafter e)
  | untombed e h => exact absurd rfl (hafter e)
  | rmMissing c y h => exact absurd rfl (hreturn none c)
  | rmReturn c y => exact absurd rfl (hreturn (some y) c)
  | tomb _ _ t q hpc₁ hpc₂ =>
    subst hq
    rcases hpc₂ with ⟨id, r, h⟩ | ⟨r, h⟩ | ⟨r, h⟩ | ⟨r, h⟩ <;> cases h
  | _ => cases hq

theorem Kept.step (hR : Race t es k) {P Q : Config} {i : Nat} (hI : RaceInv t es k P) {w : Event}
    (hw : IsWinner w es) (h : Threads.step P (.step i) = some Q) (hsee : SeesWinner w P (.step i) = true)
    (hK : Kept es k w P) : Kept es k w Q := by
  rcases Pool.step_cases h with ⟨c, hc, -⟩ | ⟨j, pc, s', pc', hj, hp, hm, rfl⟩
  · cases hc
  cases hj
  obtain ⟨e, he, ho, hst, hr⟩ := hI.raced hR hp hm
  have hemem : e ∈ es := List.mem_of_getElem? he
  refine ⟨fun j q hj hq hph => ?_, fun q hq x hqx => ?_⟩
  · by_cases hji : j = i
    · -- the winner itself: it publishes now, or has before
      subst hji
      rw [hj] at he
      cases he
      rw [Pool.get_set_self pc' hp] at hq
      cases hq
      by_cases hb : pc.phase = .before
      · rcases hr.leave hb hph with hs | ⟨oldId, hold, hlose⟩
        · exact hs
        · have hne : oldId ≠ w.id := by
            rintro rfl
            rw [hb] at hst
            exact hst.1 hold
          rw [incomingWins_winner hI hw hne] at hlose
          cases hlose
      · rcases hr.slot with hs | ⟨hs, -⟩
        · exact hs.trans (hK.slot j pc hj hp hb)
        · exact hs
    · -- another version: it finds the slot taken
      rw [Pool.get_set_ne pc' hji] at hq
      have hslot := hK.slot j q hj hq hph
      rcases hr.slot with hs | ⟨-, -, hs | ⟨oldId, rfl, hs⟩⟩
      · exact hs.trans hslot
      · rw [hslot] at hs
        cases hs
      · rw [hslot] at hs
        cases hs
        exact absurd rfl (hK.noSwap _ (List.mem_of_getElem? hp) e)
  · rcases List.mem_or_eq_of_mem_set hq with hq | rfl
    · exact hK.noSwap q hq x hqx
    · -- the lookup of the winner has just succeeded
      subst hqx
      obtain ⟨rfl, hwin⟩ := getOld_of_swapSlot hm
      obtain rfl : x = e := ho
      have hold := (hI.guards i _ hp _ _ rfl).2
      rw [hR.key _ hemem] at hold
      have hne : x ≠ w := by
        rintro rfl
        exact hst.1 hold
      have hl : P.shared.live w.id ≠ none := by
        simp only [SeesWinner, hp] at hsee
        simpa [Option.isSome_iff_ne_none] using hsee
      rw [not_incomingWins hI hw hemem hne hl hR] at hwin
      cases hwin

theorem Lost.step (hR : Race t es k) {P Q : Config} {i : Nat} (hI : RaceInv t es k P) {w : Event}
    (hw : w ∈ es) (h : Threads.step P (.step i) = some Q) (hL : Lost es k w P) : Lost es k w Q := by
  rcases Pool.step_cases h with ⟨c, hc, -⟩ | ⟨j, pc, s', pc', hj, hp, hm, rfl⟩
  · cases hc
  cases hj
  obtain ⟨e, he, ho, hst, hr⟩ := hI.raced hR hp hm
  rcases hL with ⟨q, hq, x, rfl⟩ | ⟨j, q, hj, hq, hph, hs⟩
  · obtain ⟨j, hj⟩ := List.getElem?_of_mem hq
    by_cases hji : j = i
    · -- the swap is made now: the slot is not the winner's any more
      subst hji
      rw [hp] at hj
      cases hj
      obtain rfl : x = e := ho
      have hold := (hI.guards j _ hp _ _ rfl).2
      rw [hR.key _ (List.mem_of_getElem? he)] at hold
      have hne : x.id ≠ w.id := fun h => hst.1 (by rw [hold, h])
      obtain ⟨n, hn⟩ := List.getElem?_of_mem hw
      have hnj : n ≠ j := fun h => hne (by rw [h, he] at hn; cases hn; rfl)
      obtain ⟨hlt, -⟩ := List.getElem?_eq_some_iff.1 hn
      rw [← hI.length] at hlt
      have hget := List.getElem?_eq_getElem hlt
      refine .inr ⟨n, P.threads[n], hn, ?_, fun hb => ?_, ?_⟩
      · exact (Pool.get_set_ne pc' hnj).trans hget
      · have hw' := (hI.owned n w _ hn hget).2
        rw [hb] at hw'
        exact hw'.1 hold
      · cases hm
        show Shared.slot { P.shared with idx := P.shared.idx.putSlot x.replacementKey x.id } k ≠ some w.id
        rw [Shared.slot_putSlot, if_pos (hR.key _ (List.mem_of_getElem? he)).symm]
        exact fun h => hne (Option.some.inj h)
    · exact .inl ⟨_, List.mem_of_getElem? ((Pool.get_set_ne pc' hji).trans hj), x, rfl⟩
  · by_cases hji : j = i
    · subst hji
      rw [hj] at he
      cases he
      rw [hp] at hq
      cases hq
      refine .inr ⟨j, pc', hj, Pool.get_set_self pc' hp, hr.phase hph, ?_⟩
      rcases hr.slot with h | ⟨-, hb, -⟩
      · show s'.slot k ≠ some w.id
        rwa [h]
      · exact absurd hb hph
    · refine .inr ⟨j, q, hj, (Pool.get_set_ne pc' hji).trans hq, hph, fun h => ?_⟩
      exact hs (hr.slot_of_ne (fun hid => hji (hR.index hj he hid)) h)

/-- A step that looks the winner up too early takes its slot. -/
theorem lost_of_not_seesWinner {P Q : Config} {i : Nat} {w : Event}
    (hsee : SeesWinner w P (.step i) ≠ true) (h : Threads.step P (.step i) = some Q) :
    Lost es k w Q := by
  rcases Pool.step_cases h with ⟨c, hc, -⟩ | ⟨j, pc, s', pc', hj, hp, hm, rfl⟩
  · cases hc
  cases hj
  cases pc with
  | getOld e oldId =>
    simp only [SeesWinner, hp, Bool.or_eq_true, decide_eq_true_eq, not_or, ne_eq, Decidable.not_not,
      Bool.not_eq_true, Option.isSome_eq_false_iff, Option.isNone_iff_eq_none] at hsee
    obtain ⟨rfl, hl⟩ := hsee
    have hwin : P.shared.idx.incomingWins e w.id = true := by
      unfold Index.incomingWins
      have : P.shared.idx.byId.lookup w.id = none := hl
      rw [this]
    simp only [move, hwin, if_true] at hm
    cases hm
    exact .inl ⟨_, List.mem_of_getElem? (Pool.get_set_self _ hp), e, rfl⟩
  | _ => exact absurd (by simp [SeesWinner, hp]) hsee

theorem not_slot_of_lost {P : Config} {w : Event} (hL : Lost es k w P) (hq : Quiescent P) :
    P.shared.slot k ≠ some w.id := by
  rcases hL with ⟨pc, hpc, e, rfl⟩ | ⟨-, -, -, -, -, hs⟩
  · obtain ⟨r, hr⟩ := hq _ hpc
    cases hr
  · exact hs

theorem slot_of_kept {P : Config} (hI : RaceInv t es k P) {w : Event} (hw : w ∈ es)
    (hK : Kept es k w P) (hq : Quiescent P) : P.shared.slot k = some w.id := by
  obtain ⟨i, hi⟩ := List.getElem?_of_mem hw
  obtain ⟨hlt, -⟩ := List.getElem?_eq_some_iff.1 hi
  rw [← hI.length] at hlt
  obtain ⟨r, hr⟩ := hq _ (List.getElem_mem hlt)
  exact hK.slot i _ hi (List.getElem?_eq_getElem hlt) (by rw [hr]; exact nofun)

end

/-- **Lost updates.**  Of distinct versions inserted concurrently, in any
interleaving, the one that is live at the end is the NIP-01 winner exactly when
no call looked the winner up in `by_id` before the winner was stored. -/
theorem winner_live_iff (t : Tombstones) (es : List Event) (k : ReplacementKey) (hR : Race t es k)
    (w : Event) (hw : IsWinner w es) (sched : List Nat) (P : Config)
    (hrun : Machine.run step (racing t es) (sched.map .step) = some P) (hq : Quiescent P) :
    (∀ x, x ∈ P.shared.idx.byId.values ↔ x = w) ↔
      Machine.Along step (SeesWinner w · ·) (racing t es) (sched.map .step) := by
  rw [quiescent_holder hR (run_raceInv hR hrun) hq hw.1]
  constructor
  · intro hslot
    by_contra hnot
    obtain ⟨pre, a, post, u, v, hsched, hpre, ha, hpost, hsee⟩ :=
      Machine.exists_of_not_along _ _ _ hrun hnot
    obtain ⟨sched₁, sched₂, -, rfl, h₂⟩ := List.map_eq_append_iff.1 hsched
    obtain ⟨i, sched₃, -, rfl, rfl⟩ := List.map_eq_cons_iff.1 h₂
    have hIv : RaceInv t es k v := (run_raceInv hR hpre).step hR ha
    have hL := (run_race hR (I := Lost es k w) (C := fun _ _ => True)
      (fun _ _ _ hI _ h hL => hL.step hR hI hw.1 h) hpost
      (Machine.along_of_forall _ _ fun _ _ _ => trivial) hIv (lost_of_not_seesWinner hsee ha)).2
    exact not_slot_of_lost hL hq hslot
  · intro halong
    obtain ⟨hI, hK⟩ := run_race hR (I := Kept es k w)
      (fun _ _ _ hI hsee h hK => hK.step hR hI hw h hsee) hrun halong raceInv_racing kept_racing
    exact slot_of_kept hI hw.1 hK hq

/-! The newer version against the older one. -/

def duel : List Event := [versionB, versionA]

theorem race_duel : Race .new duel (.replaceable versionB.pubkey 10002) where
  ids := by decide
  key := by decide
  replaceable := by decide
  untombed := by decide

theorem isWinner_duel : IsWinner versionB duel := by
  refine ⟨by simp [duel], fun e he hne => ?_⟩
  rcases List.mem_cons.1 he with rfl | he
  · exact absurd rfl hne
  · rw [List.mem_singleton.1 he]
    exact .inl (by decide)

/-- The newer version publishes its id; the older one does not find it in `by_id`
and takes over; the newer one gives up. -/
def overtaken : List Nat := List.replicate 2 0 ++ List.replicate 15 1 ++ List.replicate 3 0

theorem overtaken_loses_winner :
    Race .new duel (.replaceable versionB.pubkey 10002) ∧ IsWinner versionB duel ∧
    ∃ P, Machine.run step (racing .new duel) (overtaken.map .step) = some P ∧ Quiescent P ∧
      P.shared.live versionB.id = none ∧ (P.shared.live versionA.id).isSome = true ∧
      ¬ ∀ x, x ∈ P.shared.idx.byId.values ↔ x = versionB := by
  refine ⟨race_duel, isWinner_duel, ?_⟩
  obtain ⟨P, hP, h⟩ := Machine.exists_run step (racing .new duel) (overtaken.map .step)
    (fun P => decide (Quiescent P ∧ (P.shared.live versionB.id).isNone = true ∧
      (P.shared.live versionA.id).isSome = true)) (by decide +kernel)
  obtain ⟨hq, hb, ha⟩ := of_decide_eq_true h
  have hnone : P.shared.live versionB.id = none := Option.isNone_iff_eq_none.1 hb
  refine ⟨P, hP, hq, hnone, ha, fun hall => ?_⟩
  obtain ⟨id, hid⟩ := Table.mem_values_iff.1 ((hall versionB).2 rfl)
  obtain ⟨-, rfl⟩ := (run_raceInv race_duel hP).events.live id _ hid
  have : P.shared.live versionB.id = some versionB := hid
  rw [hnone] at this
  cases this

/-- The newer version is stored before the older one looks it up. -/
theorem winner_live_iff_duel :
    ∃ P, Machine.run step (racing .new duel)
      ((List.replicate 3 0 ++ List.replicate 3 1 ++ List.replicate 9 0).map .step) = some P ∧
      Quiescent P ∧ ∀ x, x ∈ P.shared.idx.byId.values ↔ x = versionB := by
  obtain ⟨P, hP, h⟩ := Machine.exists_run step (racing .new duel)
    ((List.replicate 3 0 ++ List.replicate 3 1 ++ List.replicate 9 0).map .step)
    (fun P => decide (Quiescent P)) (by decide +kernel)
  have hq := of_decide_eq_true h
  exact ⟨P, hP, hq, (winner_live_iff _ _ _ race_duel _ isWinner_duel _ P hP hq).2 (by decide +kernel)⟩

end Threads
end Memlay

import Memlay.Index
import Memlay.Lib.Machine

/-!
# Sequential runs of the index

`insert_eq` takes `insert` without the branches a single caller cannot reach:
alone, an event that took its slot over is still the winner at both re-checks.
`Inv` is the invariant of a sequential run; `insert_cases` says everything an
insert can do to a state that has it, and the later modules use only that.

The events of a run come from a set `E` in which equal ids have equal parsed
fields (`Agree E`): the id is the SHA-256 of those fields.  `raw` and `sig` may
differ between two of them.
-/

namespace Memlay

/-! ## Tombstones -/

namespace Tombstones

/-- With the right count `contains` is membership. -/
theorem contains_iff {t : Tombstones} (h : t.count = t.ids.card) (id : Bytes32) :
    t.contains id = true ↔ id ∈ t.ids := by
  unfold Tombstones.contains
  rw [h]
  constructor
  · intro hc
    simp only [Bool.and_eq_true, decide_eq_true_eq] at hc
    exact hc.2
  · intro hm
    have : t.ids.card ≠ 0 := Finset.card_ne_zero_of_mem hm
    simp [hm, this]

theorem evict_subset (max : Nat) :
    ∀ (order : List Bytes32) (ids : Finset Bytes32), (evict max order ids).2 ⊆ ids
  | [], ids => Finset.Subset.refl ids
  | id :: order, ids => by
    unfold evict
    split
    · exact (evict_subset max order (ids.erase id)).trans (Finset.erase_subset id ids)
    · exact Finset.Subset.refl ids

/-- An insert keeps the count right, also where it takes out the oldest. -/
theorem insert_count {t : Tombstones} (h : t.count = t.ids.card) (id : Bytes32) :
    (t.insert id).count = (t.insert id).ids.card := by
  unfold insert
  split
  · exact h
  · rfl

theorem mem_insert {t : Tombstones} {id x : Bytes32} (h : x ∈ (t.insert id).ids) :
    x = id ∨ x ∈ t.ids := by
  unfold insert at h
  split at h
  · exact Or.inr h
  · exact Finset.mem_insert.1 (evict_subset _ _ _ h)

end Tombstones

namespace Index

/-! ## Sets do not touch the maps -/

theorem foldl_setAdd (e : Event) (bs : List Bucket) (s : Index) :
    bs.foldl (fun s b => s.setAdd e b) s =
      { s with sets := bs.foldl (fun f b => Function.update f b (setInsert e (f b))) s.sets } := by
  induction bs generalizing s with
  | nil => rfl
  | cons b bs ih => rw [List.foldl_cons, ih]; rfl

theorem foldl_setDrop (e : Event) (bs : List Bucket) (s : Index) :
    bs.foldl (fun s b => s.setDrop e b) s =
      { s with sets := bs.foldl (fun f b => Function.update f b (setRemove e (f b))) s.sets } := by
  induction bs generalizing s with
  | nil => rfl
  | cons b bs ih => rw [List.foldl_cons, ih]; rfl

/-- The sets after `cleanup_secondary_indexes`. -/
def dropSets (f : Bucket → List Event) (e : Event) : Bucket → List Event :=
  e.buckets.foldl (fun f b => Function.update f b (setRemove e (f b))) f

/-- The sets after `insert` filled them. -/
def addSets (f : Bucket → List Event) (e : Event) : Bucket → List Event :=
  e.buckets.foldl (fun f b => Function.update f b (setInsert e (f b))) f

/-- The cleanup touches the secondary sets only. -/
theorem cleanupSecondaryIndexes_eq (s : Index) (e : Event) :
    s.cleanupSecondaryIndexes e = { s with sets := dropSets s.sets e } :=
  foldl_setDrop e e.buckets s

/-! ## `internal_remove` -/

theorem internalRemove_none {s : Index} {id : Bytes32} (h : s.byId.lookup id = none) (skip : Bool) :
    s.internalRemove id skip = (none, s) := by
  unfold internalRemove
  rw [h]

/-- The state without a live event; its slot is left as it is. -/
def without (s : Index) (e : Event) : Index :=
  { s with
    byId := s.byId.erase e.id
    memoryBytes := s.memoryBytes + -usize e.raw.length
    eventCount := s.eventCount + -1
    sets := dropSets s.sets e }

theorem internalRemove_skip {s : Index} {e : Event} (h : s.byId.lookup e.id = some e) :
    s.internalRemove e.id true = (some e, s.without e) := by
  unfold internalRemove
  rw [h]
  simp only [cleanupSecondaryIndexes_eq, Bool.not_true, Bool.false_and, Bool.false_eq_true, if_false]
  rfl

theorem internalRemove_slot {s : Index} {e : Event} (h : s.byId.lookup e.id = some e) :
    s.internalRemove e.id false = (some e,
      if e.isReplaceable then (s.without e).dropSlot e.replacementKey else s.without e) := by
  unfold internalRemove
  rw [h]
  simp only [cleanupSecondaryIndexes_eq, Bool.not_false, Bool.true_and]
  split <;> rfl

/-! ## `insert` without its dead branches -/

/-- The state after a successful insert, from the state after `swap`. -/
def stored (s : Index) (e : Event) : Index :=
  { s with
    byId := s.byId.insert e.id e
    memoryBytes := s.memoryBytes + usize e.raw.length
    eventCount := s.eventCount + 1
    sets := addSets s.sets e }

/-- The event in the slot has won. -/
theorem isStillWinner_of_slot {s : Index} {e : Event}
    (h : s.byReplaceable.lookup e.replacementKey = some e.id) : s.isStillWinner e = true := by
  unfold isStillWinner
  cases hk : e.replacementKey with
  | none => rfl
  | replaceable p k => rw [hk] at h; simp [h]
  | addressable p k d => rw [hk] at h; simp [h]

/-- After `swap` a replaceable event holds its slot. -/
theorem swap_slot {s s' : Index} {e : Event} {replaced : Option Event}
    (h : s.swap e = some (replaced, s')) (hr : e.isReplaceable = true) :
    s'.byReplaceable.lookup e.replacementKey = some e.id := by
  have hk : e.replacementKey ≠ .none := fun hn => by
    rw [Event.replacementKey_eq_none_iff, hr] at hn
    cases hn
  have key : ∀ oldId, ((s.putSlot e.replacementKey e.id).internalRemove oldId true).2.byReplaceable =
      (s.putSlot e.replacementKey e.id).byReplaceable := by
    intro oldId
    unfold internalRemove
    split
    · rfl
    · simp only [cleanupSecondaryIndexes_eq, Bool.not_true, Bool.false_and, Bool.false_eq_true,
        if_false]
      rfl
  unfold swap at h
  rw [if_pos hr] at h
  split at h
  · rename_i hn
    exact absurd hn hk
  · split at h
    · rename_i oldId _
      split at h
      · have h2 := congrArg Prod.snd (Option.some.inj h)
        simp only at h2
        rw [← h2, key oldId]
        exact AList.lookup_insert _
      · cases h
    · cases h
      exact AList.lookup_insert _

/-- The insert as its branches: a tombstone, a lost race, and what the swap leaves. -/
theorem insert_eq (s : Index) (e : Event) :
    s.insert e =
      if s.tombstones.contains e.id then (.deleted, s)
      else match s.swap e with
        | none => (.lostRace, s)
        | some (replaced, s') =>
          if (s'.byId.lookup e.id).isSome then (.duplicate, s'.putId e)
          else (.inserted replaced, s'.stored e) := by
  unfold insert
  split
  · rfl
  cases hsw : s.swap e with
  | none => rfl
  | some p =>
    obtain ⟨replaced, s'⟩ := p
    simp only
    by_cases ho : (s'.byId.lookup e.id).isSome = true
    · rw [if_pos ho, if_pos ho]
    rw [if_neg ho, if_neg ho]
    -- a replaceable event holds its slot from `swap` on, so both re-checks pass
    have hw : ∀ t : Index, t.byReplaceable = s'.byReplaceable →
        (e.isReplaceable && !t.isStillWinner e) = false := by
      intro t ht
      cases hr : e.isReplaceable with
      | false => rfl
      | true =>
        rw [isStillWinner_of_slot (by rw [ht]; exact swap_slot hsw hr)]
        rfl
    rw [hw (s'.putId e) rfl]
    simp only [foldl_setAdd, Bool.false_eq_true, if_false]
    rw [if_neg (by simp [putId, addMemory, addCount]), if_neg (by rw [hw _ (by rfl)]; simp)]
    rfl

/-! ## Where live events come from

These need no invariant: the index may hold anything. -/

theorem lookup_of_erase {m : Table Bytes32 Event} {id id' : Bytes32} {y : Event}
    (h : (m.erase id).lookup id' = some y) : m.lookup id' = some y := by
  by_cases hid : id' = id
  · rw [hid, AList.lookup_erase] at h
    cases h
  · rwa [AList.lookup_erase_ne hid] at h

/-- What is live after a removal was live before it. -/
theorem lookup_of_internalRemove {s : Index} {id id' : Bytes32} {skip : Bool} {y : Event}
    (h : (s.internalRemove id skip).2.byId.lookup id' = some y) : s.byId.lookup id' = some y := by
  unfold internalRemove at h
  split at h
  · exact h
  · rename_i e he
    simp only [cleanupSecondaryIndexes_eq] at h
    split at h
    · exact lookup_of_erase h
    · exact lookup_of_erase h

/-- What `remove` leaves in `by_id`. -/
theorem remove_lookup (s : Index) (id id' : Bytes32) :
    (s.remove id).2.byId.lookup id' = if id' = id then none else s.byId.lookup id' := by
  have herase : ∀ m : Table Bytes32 Event, (m.erase id).lookup id' =
      if id' = id then none else m.lookup id' := by
    intro m
    split
    · rename_i h
      rw [h, AList.lookup_erase]
    · rename_i h
      exact AList.lookup_erase_ne h
  unfold remove internalRemove
  split
  · rename_i hn
    split
    · rename_i h
      rw [h, hn]
    · rfl
  · simp only [cleanupSecondaryIndexes_eq, Bool.not_true, Bool.false_and, Bool.false_eq_true, if_false]
    exact herase s.byId

theorem lookup_of_swap {s s' : Index} {e : Event} {replaced : Option Event} {id : Bytes32} {y : Event}
    (hs : s.swap e = some (replaced, s')) (h : s'.byId.lookup id = some y) :
    s.byId.lookup id = some y := by
  unfold swap at hs
  split at hs
  · split at hs
    · cases hs
      exact h
    · split at hs
      · rename_i oldId _
        split at hs
        · have h2 := congrArg Prod.snd (Option.some.inj hs)
          simp only at h2
          rw [← h2] at h
          have := lookup_of_internalRemove h
          exact this
        · cases hs
      · cases hs
        exact h
  · cases hs
    exact h

/-- An insert makes at most its own event live. -/
theorem lookup_of_insert {s : Index} {e y : Event} {id : Bytes32}
    (h : (s.insert e).2.byId.lookup id = some y) :
    (y = e ∧ id = e.id) ∨ s.byId.lookup id = some y := by
  have hput : ∀ {m : Table Bytes32 Event}, (m.insert e.id e).lookup id = some y →
      (y = e ∧ id = e.id) ∨ m.lookup id = some y := by
    intro m hm
    by_cases hid : id = e.id
    · rw [hid, AList.lookup_insert] at hm
      exact Or.inl ⟨(Option.some.inj hm).symm, hid⟩
    · rw [AList.lookup_insert_ne hid] at hm
      exact Or.inr hm
  rw [insert_eq] at h
  split at h
  · exact Or.inr h
  · split at h
    · exact Or.inr h
    · rename_i replaced s' hs
      have hin : (s'.byId.insert e.id e).lookup id = some y := by
        split at h
        · exact h
        · exact h
      exact (hput hin).imp_right (lookup_of_swap hs)

/-- No insert buries or digs up. -/
theorem insert_tombstones (s : Index) (e : Event) : (s.insert e).2.tombstones = s.tombstones := by
  have hremove : ∀ (t : Index) id, (t.internalRemove id true).2.tombstones = t.tombstones := by
    intro t id
    unfold internalRemove
    split
    · rfl
    · simp only [cleanupSecondaryIndexes_eq, Bool.not_true, Bool.false_and, Bool.false_eq_true, if_false]
      rfl
  have hswap : ∀ replaced s', s.swap e = some (replaced, s') → s'.tombstones = s.tombstones := by
    intro replaced s' hs
    unfold swap at hs
    split at hs
    · split at hs
      · cases hs
        rfl
      · split at hs
        · rename_i oldId _
          split at hs
          · have h2 := congrArg Prod.snd (Option.some.inj hs)
            simp only at h2
            rw [← h2, hremove]
            rfl
          · cases hs
        · cases hs
          rfl
    · cases hs
      rfl
  rw [insert_eq]
  split
  · rfl
  · split
    · rfl
    · rename_i replaced s' hs
      split
      · exact hswap replaced s' hs
      · exact hswap replaced s' hs

/-! ## The invariant of sequential runs -/

/-- Equal ids, equal parsed fields. -/
def Agree (E : Event → Prop) : Prop := ∀ a b, E a → E b → a.id = b.id → Event.SameFields a b

structure Inv (E : Event → Prop) (s : Index) : Prop where
  /-- `by_id` is keyed by the id, and holds events of the run -/
  mem : ∀ id e, s.byId.lookup id = some e → E e ∧ e.id = id
  /-- a live replaceable event holds its slot -/
  slot : ∀ id e, s.byId.lookup id = some e → e.isReplaceable = true →
    s.byReplaceable.lookup e.replacementKey = some id
  /-- a slot names an event of the run with that key, live or not -/
  slotOf : ∀ key id, s.byReplaceable.lookup key = some id →
    ∃ x, E x ∧ x.id = id ∧ x.replacementKey = key
  count : s.tombstones.count = s.tombstones.ids.card

/-- The empty index. -/
theorem inv_new (E : Event → Prop) : Inv E new where
  mem := by intro id e h; simp [new] at h
  slot := by intro id e h; simp [new] at h
  slotOf := by intro key id h; simp [new] at h
  count := rfl

section
variable {E : Event → Prop} {s : Index} {e : Event}

theorem Inv.contains_iff (h : Inv E s) (id : Bytes32) :
    s.tombstones.contains id = true ↔ id ∈ s.tombstones.ids :=
  Tombstones.contains_iff h.count id

/-- Two live events with one replacement key are one event. -/
theorem Inv.unique (h : Inv E s) {a b : Event} (ha : s.byId.lookup a.id = some a)
    (hb : s.byId.lookup b.id = some b) (hr : a.isReplaceable = true)
    (hk : a.replacementKey = b.replacementKey) : a = b := by
  have hrb : b.isReplaceable = true := by rw [← Event.isReplaceable_eq_of_key hk, hr]
  have h1 := h.slot _ _ ha hr
  have h2 := h.slot _ _ hb hrb
  rw [hk, h2] at h1
  have hid : b.id = a.id := Option.some.inj h1
  rw [hid, ha] at hb
  exact Option.some.inj hb

/-- The slot of a replaceable event set to it; nothing for the other kinds. -/
def withSlot (s : Index) (e : Event) : Index :=
  if e.isReplaceable then s.putSlot e.replacementKey e.id else s

/-- Everything one insert can do, on a state with the invariant. -/
inductive Inserts (s : Index) (e : Event) : InsertOutcome → Index → Prop
  | deleted (ht : e.id ∈ s.tombstones.ids) : Inserts s e .deleted s
  | lostRace (old : Event) (hr : e.isReplaceable = true) (hl : s.byId.lookup old.id = some old)
      (hk : old.replacementKey = e.replacementKey) (hb : ¬ e.Beats old) : Inserts s e .lostRace s
  | duplicate (old : Event) (ht : e.id ∉ s.tombstones.ids) (hr : e.isReplaceable = false)
      (hl : s.byId.lookup e.id = some old) : Inserts s e .duplicate (s.putId e)
  | fresh (ht : e.id ∉ s.tombstones.ids) (hl : s.byId.lookup e.id = none)
      (hk : e.isReplaceable = true →
        ∀ x, s.byId.lookup x.id = some x → x.replacementKey ≠ e.replacementKey) :
      Inserts s e (.inserted none) ((s.withSlot e).stored e)
  | replaced (old : Event) (ht : e.id ∉ s.tombstones.ids) (hr : e.isReplaceable = true)
      (hl : s.byId.lookup e.id = none) (ho : s.byId.lookup old.id = some old)
      (hk : old.replacementKey = e.replacementKey) (hb : e.Beats old) :
      Inserts s e (.inserted (some old)) (((s.withSlot e).without old).stored e)

theorem swap_of_not_replaceable (s : Index) (hr : e.isReplaceable = false) :
    s.swap e = some (none, s) := by
  unfold swap
  simp [hr]

theorem swap_of_replaceable (s : Index) (hr : e.isReplaceable = true) :
    s.swap e =
      match s.byReplaceable.lookup e.replacementKey with
      | some oldId =>
        if s.incomingWins e oldId then
          some ((s.putSlot e.replacementKey e.id).internalRemove oldId true)
        else none
      | none => some (none, s.putSlot e.replacementKey e.id) := by
  have hk : e.replacementKey ≠ .none := fun hn => by
    rw [Event.replacementKey_eq_none_iff, hr] at hn
    cases hn
  unfold swap
  rw [if_pos hr]
  split
  · rename_i hn
    exact absurd hn hk
  · rfl

/-- A live event with the incoming id holds the incoming event's slot. -/
theorem Inv.slot_of_same_id (h : Inv E s) (hA : Agree E) (hE : E e) (hr : e.isReplaceable = true)
    {old : Event} (hl : s.byId.lookup e.id = some old) :
    s.byReplaceable.lookup e.replacementKey = some e.id ∧ ¬ e.Beats old := by
  obtain ⟨hEo, hid⟩ := h.mem _ _ hl
  have hsame := hA old e hEo hE hid
  refine ⟨?_, fun hb => hb.ne_id hid.symm hsame.createdAt.symm⟩
  rw [← hsame.replacementKey]
  exact h.slot _ _ hl (by rw [hsame.isReplaceable, hr])

/-- The inversion lemma of `insert`: it is one of the five outcomes. -/
theorem insert_cases (h : Inv E s) (hA : Agree E) (hE : E e) :
    Inserts s e (s.insert e).1 (s.insert e).2 := by
  rw [insert_eq]
  by_cases ht : s.tombstones.contains e.id = true
  · rw [if_pos ht]
    exact .deleted ((h.contains_iff _).1 ht)
  rw [if_neg ht]
  have ht' : e.id ∉ s.tombstones.ids := fun hm => ht ((h.contains_iff _).2 hm)
  cases hr : e.isReplaceable with
  | false =>
    rw [swap_of_not_replaceable s hr]
    simp only
    cases hl : s.byId.lookup e.id with
    | some old => exact .duplicate old ht' hr hl
    | none =>
      have := Inserts.fresh (s := s) ht' hl (fun hr' => by rw [hr] at hr'; cases hr')
      simpa [withSlot, hr] using this
  | true =>
    rw [swap_of_replaceable s hr]
    -- with no live holder of the slot nothing with this key is live, the id included
    have hvacant : (∀ id, s.byReplaceable.lookup e.replacementKey = some id →
        s.byId.lookup id = none) → Inserts s e (.inserted none) ((s.withSlot e).stored e) := by
      intro hv
      refine .fresh ht' ?_ fun _ x hx hk => ?_
      · cases hl : s.byId.lookup e.id with
        | none => rfl
        | some old =>
          have := hv _ (h.slot_of_same_id hA hE hr hl).1
          rw [hl] at this
          cases this
      · have := h.slot _ _ hx (by rw [Event.isReplaceable_eq_of_key hk, hr])
        rw [hk] at this
        have := hv _ this
        rw [hx] at this
        cases this
    cases hs : s.byReplaceable.lookup e.replacementKey with
    | none =>
      have hf := hvacant (fun id hid => by rw [hs] at hid; cases hid)
      have hl : s.byId.lookup e.id = none := by cases hf; assumption
      simpa [withSlot, hr, putSlot, hl] using hf
    | some oldId =>
      simp only
      cases hold : s.byId.lookup oldId with
      | none =>
        have hf := hvacant (fun id hid => by rw [hs] at hid; cases hid; exact hold)
        have hl : s.byId.lookup e.id = none := by cases hf; assumption
        have hw : s.incomingWins e oldId = true := by unfold incomingWins; rw [hold]
        rw [if_pos hw, internalRemove_none (by exact hold)]
        simpa [withSlot, hr, putSlot, hl] using hf
      | some old =>
        obtain ⟨hEo, rfl⟩ := h.mem _ _ hold
        have hk : old.replacementKey = e.replacementKey := by
          obtain ⟨x, hEx, hxid, hxk⟩ := h.slotOf _ _ hs
          rw [(hA old x hEo hEx hxid.symm).replacementKey, hxk]
        by_cases hb : e.Beats old
        · have hne : old.id ≠ e.id := fun hid =>
            hb.ne_id hid.symm (hA e old hE hEo hid.symm).createdAt
          have hl : s.byId.lookup e.id = none := by
            cases hl : s.byId.lookup e.id with
            | none => rfl
            | some x =>
              have := (h.slot_of_same_id hA hE hr hl).1
              rw [hs] at this
              exact absurd (Option.some.inj this) hne
          have hw : s.incomingWins e old.id = true := by unfold incomingWins; simp [hold, hb]
          rw [if_pos hw, internalRemove_skip (by exact hold)]
          have hl' : ((s.putSlot e.replacementKey e.id).without old).byId.lookup e.id = none := by
            simp only [without, putSlot]
            rw [AList.lookup_erase_ne (Ne.symm hne), hl]
          simpa [hl', withSlot, hr] using Inserts.replaced old ht' hr hl hold hk hb
        · have hw : ¬ s.incomingWins e old.id = true := by unfold incomingWins; simp [hold, hb]
          rw [if_neg hw]
          exact .lostRace old hr hold hk hb

/-! ## Lookups after an operation -/

@[simp] theorem withSlot_byId (s : Index) (e : Event) : (s.withSlot e).byId = s.byId := by
  unfold withSlot
  split <;> rfl

@[simp] theorem withSlot_tombstones (s : Index) (e : Event) :
    (s.withSlot e).tombstones = s.tombstones := by
  unfold withSlot
  split <;> rfl

theorem withSlot_slot (s : Index) (e : Event) (key : ReplacementKey) :
    (s.withSlot e).byReplaceable.lookup key =
      if e.isReplaceable = true ∧ key = e.replacementKey then some e.id
      else s.byReplaceable.lookup key := by
  unfold withSlot putSlot
  by_cases hr : e.isReplaceable = true
  · by_cases hk : key = e.replacementKey
    · subst hk
      simp [hr]
    · simp [hr, hk, AList.lookup_insert_ne hk]
  · simp [hr]

/-- After the store the id is live with that event. -/
theorem stored_lookup (s : Index) (e : Event) (id : Bytes32) :
    (s.stored e).byId.lookup id = if id = e.id then some e else s.byId.lookup id := by
  simp only [stored]
  split
  · rename_i h
    rw [h, AList.lookup_insert]
  · rename_i h
    exact AList.lookup_insert_ne h

theorem putId_lookup (s : Index) (e : Event) (id : Bytes32) :
    (s.putId e).byId.lookup id = if id = e.id then some e else s.byId.lookup id :=
  stored_lookup s e id

/-- A regular event has no slot to win. -/
theorem insert_of_regular {s : Index} {e : Event} (hr : e.isReplaceable = false)
    (ht : s.isTombstoned e.id = false) :
    s.insert e = if (s.byId.lookup e.id).isSome then (.duplicate, s.putId e)
        else (.inserted none, s.stored e) := by
  have ht' : ¬ s.tombstones.contains e.id = true := by
    intro h
    unfold isTombstoned at ht
    rw [h] at ht
    cases ht
  rw [insert_eq, if_neg ht', swap_of_not_replaceable s hr]

theorem lookup_insert_of_regular {s : Index} {e : Event} (hr : e.isReplaceable = false)
    (ht : s.isTombstoned e.id = false) (id : Bytes32) :
    (s.insert e).2.byId.lookup id = if id = e.id then some e else s.byId.lookup id := by
  rw [insert_of_regular hr ht]
  split
  · exact putId_lookup s e id
  · exact stored_lookup s e id

/-- After a removal the id is gone, the others are as they were. -/
theorem without_lookup (s : Index) (e : Event) (id : Bytes32) :
    (s.without e).byId.lookup id = if id = e.id then none else s.byId.lookup id := by
  simp only [without]
  split
  · rename_i h
    rw [h, AList.lookup_erase]
  · rename_i h
    exact AList.lookup_erase_ne h

/-! ## The operations keep the invariant -/

/-- Taking a live event out keeps the invariant. -/
theorem Inv.without (h : Inv E s) (x : Event) : Inv E (s.without x) := by
  have hlive : ∀ id y, (s.without x).byId.lookup id = some y → s.byId.lookup id = some y := by
    intro id y hy
    rw [without_lookup] at hy
    split at hy
    · cases hy
    · exact hy
  exact ⟨fun id y hy => h.mem id y (hlive id y hy), fun id y hy => h.slot id y (hlive id y hy),
    h.slotOf, h.count⟩

/-- Storing an event whose slot has no live holder. -/
theorem Inv.store (h : Inv E s) (hE : E e)
    (hk : e.isReplaceable = true → ∀ id x, s.byId.lookup id = some x →
      x.replacementKey ≠ e.replacementKey) : Inv E ((s.withSlot e).stored e) := by
  have hslot : ((s.withSlot e).stored e).byReplaceable = (s.withSlot e).byReplaceable := rfl
  refine ⟨fun id x hx => ?_, fun id x hx hrx => ?_, fun key id hid => ?_, ?_⟩
  · rw [stored_lookup, withSlot_byId] at hx
    split at hx
    · rename_i hid
      cases hx
      exact ⟨hE, hid.symm⟩
    · exact h.mem id x hx
  · rw [stored_lookup, withSlot_byId] at hx
    rw [hslot, withSlot_slot]
    split at hx
    · rename_i hid
      cases hx
      rw [if_pos ⟨hrx, rfl⟩, hid]
    · rw [if_neg]
      · exact h.slot id x hx hrx
      · rintro ⟨hr, hkx⟩
        exact hk hr id x hx hkx
  · rw [hslot, withSlot_slot] at hid
    split at hid
    · rename_i hc
      cases hid
      exact ⟨e, hE, rfl, hc.2.symm⟩
    · exact h.slotOf key id hid
  · show (s.withSlot e).tombstones.count = (s.withSlot e).tombstones.ids.card
    rw [withSlot_tombstones]
    exact h.count

theorem withSlot_without (s : Index) (e old : Event) :
    (s.withSlot e).without old = (s.without old).withSlot e := by
  unfold withSlot
  split <;> rfl

/-- Each outcome of an insert keeps the invariant. -/
theorem Inserts.inv {o : InsertOutcome} {s' : Index} (hc : Inserts s e o s') (h : Inv E s)
    (hE : E e) : Inv E s' := by
  cases hc with
  | deleted ht => exact h
  | lostRace old hr hl hk hb => exact h
  | duplicate old ht hr hl =>
    refine ⟨fun id x hx => ?_, fun id x hx hrx => ?_, h.slotOf, h.count⟩
    · rw [putId_lookup] at hx
      split at hx
      · rename_i hid
        cases hx
        exact ⟨hE, hid.symm⟩
      · exact h.mem id x hx
    · rw [putId_lookup] at hx
      split at hx
      · cases hx
        rw [hr] at hrx
        cases hrx
      · exact h.slot id x hx hrx
  | fresh ht hl hk =>
    refine h.store hE fun hr id x hx => ?_
    obtain ⟨-, rfl⟩ := h.mem id x hx
    exact hk hr x hx
  | replaced old ht hr hl ho hk hb =>
    rw [withSlot_without]
    refine (h.without old).store hE fun _ id x hx hkx => ?_
    -- another live event with the key would be the replaced one
    rw [without_lookup] at hx
    split at hx
    · cases hx
    · rename_i hne
      obtain ⟨-, rfl⟩ := h.mem id x hx
      exact hne (congrArg Event.id (h.unique ho hx (by rw [Event.isReplaceable_eq_of_key hk, hr])
        (hk.trans hkx.symm)).symm)

theorem Inv.insert (h : Inv E s) (hA : Agree E) (hE : E e) : Inv E (s.insert e).2 :=
  (insert_cases h hA hE).inv h hE

theorem Inv.tombstone (h : Inv E s) (id : Bytes32) : Inv E (s.tombstone id) :=
  ⟨h.mem, h.slot, h.slotOf, Tombstones.insert_count h.count id⟩

/-- What `internal_remove` does: nothing, or the event is out, with its slot
when `skip_replaceable` is off. -/
theorem Inv.internalRemove_eq (h : Inv E s) (id : Bytes32) (skip : Bool) :
    (s.byId.lookup id = none ∧ s.internalRemove id skip = (none, s)) ∨
    ∃ x, x.id = id ∧ s.byId.lookup id = some x ∧
      s.internalRemove id skip = (some x,
        if !skip && x.isReplaceable then (s.without x).dropSlot x.replacementKey
        else s.without x) := by
  cases hl : s.byId.lookup id with
  | none => exact Or.inl ⟨rfl, internalRemove_none hl skip⟩
  | some x =>
    obtain ⟨-, rfl⟩ := h.mem id x hl
    refine Or.inr ⟨x, rfl, rfl, ?_⟩
    cases skip with
    | true => rw [internalRemove_skip hl]; rfl
    | false => rw [internalRemove_slot hl]; rfl

theorem Inv.dropSlot (h : Inv E s) {key : ReplacementKey}
    (hk : ∀ id x, s.byId.lookup id = some x → x.replacementKey ≠ key) : Inv E (s.dropSlot key) := by
  refine ⟨h.mem, fun id x hx hr => ?_, fun key' id hid => ?_, h.count⟩
  · show (s.byReplaceable.erase key).lookup x.replacementKey = some id
    rw [AList.lookup_erase_ne (hk id x hx)]
    exact h.slot id x hx hr
  · have hid' : (s.byReplaceable.erase key).lookup key' = some id := hid
    by_cases hkk : key' = key
    · rw [hkk, AList.lookup_erase] at hid'
      cases hid'
    · rw [AList.lookup_erase_ne hkk] at hid'
      exact h.slotOf key' id hid'

theorem Inv.internalRemove (h : Inv E s) (id : Bytes32) (skip : Bool) :
    Inv E (s.internalRemove id skip).2 := by
  rcases h.internalRemove_eq id skip with ⟨-, he⟩ | ⟨x, rfl, hx, he⟩
  · rw [he]
    exact h
  · rw [he]
    simp only
    split
    · rename_i hs
      refine (h.without x).dropSlot fun id y hy hk => ?_
      rw [without_lookup] at hy
      split at hy
      · cases hy
      · rename_i hne
        obtain ⟨-, rfl⟩ := h.mem id y hy
        have hr : x.isReplaceable = true := by
          rw [Bool.and_eq_true] at hs
          exact hs.2
        exact hne (congrArg Event.id (h.unique hx hy hr hk.symm).symm)
    · exact h.without x

/-! ## No live event is tombstoned -/

/-- No live id has a tombstone. -/
def LiveUntombed (s : Index) : Prop := ∀ id e, s.byId.lookup id = some e → id ∉ s.tombstones.ids

theorem liveUntombed_new : LiveUntombed new := by
  intro id e h
  simp [new] at h

theorem LiveUntombed.without (h : LiveUntombed s) (x : Event) : LiveUntombed (s.without x) := by
  intro id y hy
  rw [without_lookup] at hy
  split at hy
  · cases hy
  · exact h id y hy

/-- An insert checks the tombstone before it stores. -/
theorem Inserts.liveUntombed {o : InsertOutcome} {s' : Index} (hc : Inserts s e o s')
    (h : LiveUntombed s) : LiveUntombed s' := by
  have hstored : ∀ t : Index, LiveUntombed t → t.tombstones = s.tombstones →
      e.id ∉ s.tombstones.ids → LiveUntombed (t.stored e) := by
    intro t ht hts hid id x hx
    show id ∉ t.tombstones.ids
    rw [stored_lookup] at hx
    split at hx
    · rename_i hxe
      rw [hxe, hts]
      exact hid
    · exact ht id x hx
  have hslot : LiveUntombed (s.withSlot e) := by
    intro id x hx
    rw [withSlot_byId] at hx
    rw [withSlot_tombstones]
    exact h id x hx
  cases hc with
  | deleted ht => exact h
  | lostRace old hr hl hk hb => exact h
  | duplicate old ht hr hl =>
    intro id x hx
    rw [putId_lookup] at hx
    split at hx
    · rename_i hxe
      rw [hxe]
      exact ht
    · exact h id x hx
  | fresh ht hl hk => exact hstored _ hslot (withSlot_tombstones s e) ht
  | replaced old ht hr hl ho hk hb =>
    exact hstored _ (hslot.without old) (withSlot_tombstones s e) ht

theorem LiveUntombed.internalRemove (hu : LiveUntombed s) (h : Inv E s) (id : Bytes32) (skip : Bool) :
    LiveUntombed (s.internalRemove id skip).2 := by
  rcases h.internalRemove_eq id skip with ⟨-, he⟩ | ⟨x, rfl, hx, he⟩
  · rw [he]
    exact hu
  · rw [he]
    simp only
    split
    · exact hu.without x
    · exact hu.without x

/-- After `internal_remove` the id is not live. -/
theorem Inv.internalRemove_lookup (h : Inv E s) (id : Bytes32) (skip : Bool) :
    (s.internalRemove id skip).2.byId.lookup id = none := by
  rcases h.internalRemove_eq id skip with ⟨hn, he⟩ | ⟨x, rfl, hx, he⟩
  · rw [he]
    exact hn
  · rw [he]
    have := without_lookup s x x.id
    rw [if_pos rfl] at this
    simp only
    split
    · exact this
    · exact this

/-- A deletion takes the id out and then sets its tombstone. -/
theorem LiveUntombed.deleteById (hu : LiveUntombed s) (h : Inv E s) (id : Bytes32) :
    LiveUntombed (s.deleteById id).2 := by
  intro x y hy hm
  have hy' : (s.internalRemove id false).2.byId.lookup x = some y := hy
  rcases Tombstones.mem_insert hm with rfl | hm
  · rw [h.internalRemove_lookup x false] at hy'
    cases hy'
  · exact hu.internalRemove h id false x y hy' hm

end

/-! ## Runs -/

/-- An operation of a sequential run. -/
inductive Op where
  | insert (e : Event)
  | remove (id : Bytes32)
  | deleteById (id : Bytes32)
deriving DecidableEq

/-- What it does to the index. -/
def apply (s : Index) : Op → Index
  | .insert e => (s.insert e).2
  | .remove id => (s.remove id).2
  | .deleteById id => (s.deleteById id).2

/-- The index as a machine; every operation is possible in every state. -/
def step (s : Index) (op : Op) : Option Index := some (s.apply op)

/-- The events a run inserts. -/
def Inserted (ops : List Op) (e : Event) : Prop := Op.insert e ∈ ops

/-- The step lemma of the invariant. -/
theorem Inv.apply {ops : List Op} {s : Index} {op : Op} (hA : Agree (Inserted ops)) (hop : op ∈ ops)
    (h : Inv (Inserted ops) s) : Inv (Inserted ops) (s.apply op) := by
  cases op with
  | insert e => exact h.insert hA hop
  | remove id => exact h.internalRemove id true
  | deleteById id => exact (h.internalRemove id false).tombstone id

/-- The step lemma of the tombstones. -/
theorem LiveUntombed.apply {ops : List Op} {s : Index} {op : Op} (hA : Agree (Inserted ops))
    (hop : op ∈ ops) (h : Inv (Inserted ops) s) (hu : LiveUntombed s) : LiveUntombed (s.apply op) := by
  cases op with
  | insert e => exact (insert_cases h hA hop).liveUntombed hu
  | remove id => exact hu.internalRemove h id true
  | deleteById id => exact hu.deleteById h id

/-- The run lemma. -/
theorem run_inv {ops : List Op} (hA : Agree (Inserted ops)) {pre : List Op} (hpre : pre <+: ops)
    {s : Index} (hs : Machine.run step new pre = some s) :
    Inv (Inserted ops) s ∧ LiveUntombed s := by
  induction pre using List.reverseRecOn generalizing s with
  | nil =>
    cases hs
    exact ⟨inv_new _, liveUntombed_new⟩
  | append_singleton pre op ih =>
    obtain ⟨s', hs', hstep⟩ := (Machine.run_concat_eq_some step).1 hs
    cases hstep
    obtain ⟨hI, hu⟩ := ih ((List.prefix_append pre [op]).trans hpre) hs'
    have hop : op ∈ ops := hpre.subset (by simp)
    exact ⟨hI.apply hA hop, hu.apply hA hop hI⟩

end Index
end Memlay

import Memlay.IndexInv
import Memlay.Lib.Registers

/-!
# The index as a board of registers

Seen through its live ids and its tombstones, the index is a board: an event
competes for the slot of its replacement key, or for a slot of its own, under
NIP-01's order.  `Shows s b` relates the two, and every index operation is the
board's operation of the same name.

The board speaks of ids only.  `fields` gives each id its parsed fields; the
events of a run agree with it (`Fields E fields`), since the id is their hash.
-/

namespace Memlay

open Registers (Rules Board)

/-! ## Tombstones in order -/

namespace Tombstones

/-- The set and the queue hold the same ids. -/
structure Ordered (t : Tombstones) : Prop where
  ids : t.ids = t.order.toFinset
  nodup : t.order.Nodup

theorem ordered_new : Ordered new := ⟨rfl, List.nodup_nil⟩

theorem evict_eq (max : Nat) (order : List Bytes32) (h : order.Nodup) :
    evict max order order.toFinset =
      (Registers.last max order, (Registers.last max order).toFinset) := by
  induction order with
  | nil => simp [evict, Registers.last]
  | cons id order ih =>
    rw [List.nodup_cons] at h
    unfold evict
    split
    · rename_i hlt
      have he : (id :: order).toFinset.erase id = order.toFinset := by
        rw [List.toFinset_cons, Finset.erase_insert (by simpa using h.1)]
      have hd : (id :: order).length - max = (order.length - max) + 1 := by
        rw [List.length_cons] at hlt ⊢
        omega
      rw [he, ih h.2]
      unfold Registers.last
      rw [hd, List.drop_succ_cons]
    · rename_i hle
      unfold Registers.last
      rw [Nat.sub_eq_zero_of_le (by omega), List.drop_zero]

theorem Ordered.insert {t : Tombstones} (h : Ordered t) (id : Bytes32) :
    (t.insert id).order = (if id ∈ t.order then t.order else Registers.last maxTombstones (t.order ++ [id])) ∧
      Ordered (t.insert id) := by
  unfold Tombstones.insert
  by_cases hm : id ∈ t.ids
  · have hm' : id ∈ t.order := by simpa [h.ids] using hm
    rw [if_pos hm, if_pos hm']
    exact ⟨rfl, h⟩
  · have hm' : id ∉ t.order := by simpa [h.ids] using hm
    have hnd : (t.order ++ [id]).Nodup := by
      rw [List.nodup_append]
      refine ⟨h.nodup, List.nodup_singleton id, fun a ha b hb hab => hm' ?_⟩
      rw [List.mem_singleton] at hb
      rwa [← hb, ← hab]
    have hset : Insert.insert id t.ids = (t.order ++ [id]).toFinset := by
      rw [h.ids, List.toFinset_append]
      ext a
      simp
    rw [if_neg hm, if_neg hm', hset, evict_eq _ _ hnd]
    generalize maxTombstones = max
    exact ⟨rfl, rfl, hnd.sublist (List.drop_sublist _ _)⟩

theorem insert_order {K : Type*} {t : Tombstones} (h : Ordered t) (id : Bytes32) (r : Rules Bytes32 K)
    (hcap : r.cap = maxTombstones) :
    (t.insert id).order = Registers.push r t.order id ∧ Ordered (t.insert id) := by
  unfold Registers.push
  rw [hcap]
  convert h.insert id

/-- As long as there is room, no id is forgotten. -/
theorem Ordered.ids_insert {t : Tombstones} (h : Ordered t) {id : Bytes32} (hroom : t.len < maxTombstones) :
    (t.insert id).ids = Insert.insert id t.ids := by
  obtain ⟨horder, hins⟩ := h.insert id
  rw [hins.ids, horder, h.ids]
  split
  · rename_i hm
    exact (Finset.insert_eq_self.2 (List.mem_toFinset.2 hm)).symm
  · have hlen : t.order.length < maxTombstones := by
      unfold len at hroom
      rwa [h.ids, List.toFinset_card_of_nodup h.nodup] at hroom
    unfold Registers.last
    rw [List.length_append, List.length_singleton, Nat.sub_eq_zero_of_le (by omega), List.drop_zero,
      List.toFinset_append]
    ext a
    simp

theorem Ordered.ids_foldl_insert {t : Tombstones} (h : Ordered t) {gone : List Bytes32}
    (hcap : t.len + gone.length ≤ maxTombstones) :
    (gone.foldl Tombstones.insert t).ids = t.ids ∪ gone.toFinset := by
  induction gone generalizing t with
  | nil => simp
  | cons id gone ih =>
    rw [List.length_cons] at hcap
    have hids : (t.insert id).ids = Insert.insert id t.ids := h.ids_insert (by omega)
    have hlen : (t.insert id).len ≤ t.len + 1 := by
      unfold len
      rw [hids]
      exact Finset.card_insert_le id t.ids
    rw [List.foldl_cons, ih (h.insert id).2 (by omega), hids, List.toFinset_cons]
    ext a
    simp

/-- The insertions that find their id absent, in order. -/
def freshInserts (t : Tombstones) : List Bytes32 → List Bytes32
  | [] => []
  | id :: rest => if id ∈ t.ids then freshInserts (t.insert id) rest else id :: freshInserts (t.insert id) rest

theorem freshInserts_nil (t : Tombstones) : freshInserts t [] = [] := rfl

theorem freshInserts_cons (t : Tombstones) (id : Bytes32) (rest : List Bytes32) :
    freshInserts t (id :: rest) =
      if id ∈ t.ids then freshInserts (t.insert id) rest else id :: freshInserts (t.insert id) rest :=
  rfl

/-- The queue is the window of the last `maxTombstones` of the fresh insertions, and the set and
the counter go with it. -/
structure Window (fresh : List Bytes32) (t : Tombstones) : Prop where
  ordered : Ordered t
  order : t.order = Registers.last maxTombstones fresh
  count : t.count = t.ids.card

theorem window_new : Window [] new := ⟨ordered_new, rfl, rfl⟩

theorem Window.insert {fresh : List Bytes32} {t : Tombstones} (h : Window fresh t) (id : Bytes32) :
    Window (if id ∈ t.ids then fresh else fresh ++ [id]) (t.insert id) := by
  obtain ⟨horder, hins⟩ := h.ordered.insert id
  refine ⟨hins, ?_, insert_count h.count id⟩
  have hmem : id ∈ t.ids ↔ id ∈ t.order := by rw [h.ordered.ids, List.mem_toFinset]
  by_cases hm : id ∈ t.ids
  · rw [if_pos hm, horder, if_pos (hmem.1 hm), h.order]
  · rw [if_neg hm, horder, if_neg (fun ho => hm (hmem.2 ho)), h.order, Registers.last_last_append]

theorem Window.foldl_insert {fresh : List Bytes32} {t : Tombstones} (h : Window fresh t) (ids : List Bytes32) :
    Window (fresh ++ freshInserts t ids) (ids.foldl Tombstones.insert t) := by
  induction ids generalizing fresh t with
  | nil => rwa [freshInserts_nil, List.append_nil]
  | cons id rest ih =>
    have hnext := ih (h.insert id)
    rw [List.foldl_cons, freshInserts_cons]
    by_cases hm : id ∈ t.ids
    · rw [if_pos hm] at hnext ⊢
      exact hnext
    · rw [if_neg hm, List.append_assoc] at hnext
      rw [if_neg hm]
      exact hnext

/-- Any calls of `insert`, repeats and aged-out ids included, leave a bounded FIFO: the queue lists
the map's ids once each, and the ids contained are the last `maxTombstones` that came in fresh. -/
theorem bounded_fifo (ids : List Bytes32) :
    let t := ids.foldl Tombstones.insert new
    t.order.Nodup ∧ (∀ id, id ∈ t.order ↔ id ∈ t.ids) ∧
      t.count = t.ids.card ∧ t.count ≤ maxTombstones ∧
      ∀ id, t.contains id = true ↔ id ∈ Registers.last maxTombstones (freshInserts new ids) := by
  intro t
  have h : Window (freshInserts new ids) t := window_new.foldl_insert ids
  have hids : ∀ id, id ∈ t.order ↔ id ∈ t.ids := by
    intro id
    rw [h.ordered.ids, List.mem_toFinset]
  refine ⟨h.ordered.nodup, hids, h.count, ?_, ?_⟩
  · rw [h.count, h.ordered.ids, List.toFinset_card_of_nodup h.ordered.nodup, h.order]
    exact Registers.length_last_le _ _
  · intro id
    rw [contains_iff h.count id, ← hids id, h.order]

end Tombstones

namespace Index

/-! ## Slots and rank of an id -/

inductive Slot where
  | own (id : Bytes32)
  | shared (key : ReplacementKey)

/-- NIP-01's rules on ids. -/
def rules (fields : Bytes32 → Event) : Rules Bytes32 Slot where
  key id := if (fields id).isReplaceable then .shared (fields id).replacementKey else .own id
  beats a b := (fields b).createdAt < (fields a).createdAt ∨
    ((fields a).createdAt = (fields b).createdAt ∧ a < b)
  cap := maxTombstones
  irrefl := by
    intro v h
    simp only [BitVec.lt_def] at h
    omega
  trans := by
    intro a b c hab hbc
    simp only [BitVec.lt_def] at *
    omega
  total := by
    intro a b hab
    have hn : a.toNat ≠ b.toNat := fun he => hab (BitVec.eq_of_toNat_eq he)
    simp only [BitVec.lt_def]
    omega

/-- `fields` gives the parsed fields of the events of `E`. -/
def Fields (E : Event → Prop) (fields : Bytes32 → Event) : Prop :=
  ∀ e, E e → Event.SameFields (fields e.id) e

theorem exists_fields {E : Event → Prop} (hA : Agree E) : ∃ fields, Fields E fields := by
  classical
  refine ⟨fun id => if h : ∃ e, E e ∧ e.id = id then h.choose else note 0, fun e he => ?_⟩
  have h : ∃ a, E a ∧ a.id = e.id := ⟨e, he, rfl⟩
  simp only [dif_pos h]
  exact hA _ _ h.choose_spec.1 he h.choose_spec.2

section
variable {E : Event → Prop} {fields : Bytes32 → Event} {s : Index} {b : Board Bytes32 Slot} {e : Event}

theorem Fields.key (hF : Fields E fields) (he : E e) : (rules fields).key e.id =
    if e.isReplaceable then .shared e.replacementKey else .own e.id := by
  simp only [rules, (hF e he).isReplaceable, (hF e he).replacementKey]

theorem Fields.beats_iff (hF : Fields E fields) {a : Event} (ha : E a) (he : E e) :
    (rules fields).beats a.id e.id ↔ a.Beats e := by
  simp only [rules, (hF e he).createdAt, (hF a ha).createdAt]
  rfl

/-- Two events of one slot: the same id, or the same replacement key. -/
theorem Fields.key_eq_iff (hF : Fields E fields) {a : Event} (ha : E a) (he : E e) :
    (rules fields).key a.id = (rules fields).key e.id ↔
      a.id = e.id ∨ (e.isReplaceable = true ∧ a.replacementKey = e.replacementKey) := by
  constructor
  · rw [hF.key ha, hF.key he]
    intro h
    split at h
    · split at h
      · rename_i hr
        exact Or.inr ⟨hr, Slot.shared.inj h⟩
      · cases h
    · split at h
      · cases h
      · exact Or.inl (Slot.own.inj h)
  · rintro (h | ⟨hr, hk⟩)
    · rw [h]
    · rw [hF.key ha, hF.key he, Event.isReplaceable_eq_of_key hk, hk, if_pos hr, if_pos hr]

/-! ## The relation -/

/-- The board has the index's live ids in their slots, and its tombstones. -/
structure Shows (fields : Bytes32 → Event) (s : Index) (b : Board Bytes32 Slot) : Prop where
  live : ∀ id, (∃ e, s.byId.lookup id = some e) ↔ b.holder ((rules fields).key id) = some id
  own : ∀ k id, b.holder k = some id → (rules fields).key id = k
  buried : b.buried = s.tombstones.order
  ordered : s.tombstones.Ordered

theorem shows_new : Shows fields new Registers.empty where
  live := by
    intro id
    simp [new, Registers.empty, Registers.fresh]
  own := by
    intro k id h
    cases h
  buried := rfl
  ordered := Tombstones.ordered_new

theorem Shows.mem_buried (h : Shows fields s b) (id : Bytes32) :
    id ∈ b.buried ↔ id ∈ s.tombstones.ids := by
  rw [h.buried, h.ordered.ids, List.mem_toFinset]

/-- A live event holds its slot. -/
theorem Shows.holder_of_lookup (h : Shows fields s b) {id : Bytes32} {y : Event}
    (hy : s.byId.lookup id = some y) : b.holder ((rules fields).key id) = some id :=
  (h.live id).1 ⟨y, hy⟩

/-- What holds a slot is live. -/
theorem Shows.lookup_of_holder (h : Shows fields s b) {k : Slot} {id : Bytes32}
    (hk : b.holder k = some id) : ∃ y, s.byId.lookup id = some y :=
  (h.live id).2 (by rw [h.own k id hk]; exact hk)

theorem Shows.sound (h : Shows fields s b) (hu : LiveUntombed s) :
    Registers.Sound (rules fields) b := by
  intro k id hk
  obtain ⟨y, hy⟩ := h.lookup_of_holder hk
  exact ⟨h.own k id hk, fun hm => hu id y hy ((h.mem_buried id).1 hm)⟩

/-! ## Inserts -/

/-- The records of an insert, as ids. -/
def insertRecs (e : Event) : InsertOutcome → List (Registers.Rec Bytes32)
  | .inserted replaced => .put e.id :: replaced.toList.map fun old => .drop old.id
  | _ => []

/-- The board after the winner of a slot has changed. -/
theorem Shows.store {s' : Index} (h : Shows fields s b) (ha : Registers.Accepts (rules fields) b e.id)
    (hlive : ∀ id, (∃ y, s'.byId.lookup id = some y) ↔
      id = e.id ∨ (b.holder ((rules fields).key id) = some id ∧
        (rules fields).key id ≠ (rules fields).key e.id))
    (ht : s'.tombstones = s.tombstones) : Shows fields s' (Registers.put (rules fields) b e.id) := by
  refine ⟨fun id => ?_, fun k id hk => ?_, ?_, by rw [ht]; exact h.ordered⟩
  · rw [hlive]
    by_cases hk : (rules fields).key id = (rules fields).key e.id
    · rw [hk, Registers.put_holder_self ha]
      constructor
      · rintro (rfl | ⟨-, hne⟩)
        · rfl
        · exact absurd rfl hne
      · exact fun he => Or.inl (Option.some.inj he).symm
    · have hne : id ≠ e.id := fun he => hk (by rw [he])
      rw [Registers.put_holder_ne b hk]
      constructor
      · rintro (he | ⟨hh, -⟩)
        · exact absurd he hne
        · exact hh
      · exact fun hh => Or.inr ⟨hh, hk⟩
  · by_cases hke : k = (rules fields).key e.id
    · rw [hke, Registers.put_holder_self ha] at hk
      rw [← Option.some.inj hk, hke]
    · rw [Registers.put_holder_ne b hke] at hk
      exact h.own k id hk
  · rw [Registers.put_buried, ht]
    exact h.buried

/-- An insert the board refuses leaves the live ids as they are. -/
theorem Shows.refuse {s' : Index} (h : Shows fields s b) (ha : ¬ Registers.Accepts (rules fields) b e.id)
    (hl : ∀ id, (∃ y, s'.byId.lookup id = some y) ↔ ∃ y, s.byId.lookup id = some y)
    (ht : s'.tombstones = s.tombstones) :
    Shows fields s' (Registers.put (rules fields) b e.id) ∧
        [] = Registers.recsOf (rules fields) b (.put e.id) := by
  rw [Registers.put_of_not_accepts ha]
  refine ⟨⟨fun id => ?_, h.own, by rw [ht]; exact h.buried, by rw [ht]; exact h.ordered⟩, (if_neg ha).symm⟩
  rw [hl]
  exact h.live id

/-- An event whose slot is free takes it. -/
theorem Shows.take (h : Shows fields s b) (ht : e.id ∉ s.tombstones.ids)
    (hfree : b.holder ((rules fields).key e.id) = none) :
    Shows fields ((s.withSlot e).stored e) (Registers.put (rules fields) b e.id) ∧
      insertRecs e (.inserted none) = Registers.recsOf (rules fields) b (.put e.id) := by
  have ha : Registers.Accepts (rules fields) b e.id := by
    refine ⟨fun hm => ht ((h.mem_buried _).1 hm), fun u hu => ?_⟩
    rw [hfree] at hu
    cases hu
  refine ⟨h.store ha (fun id => ?_) (withSlot_tombstones s e), ?_⟩
  · rw [stored_lookup, withSlot_byId]
    split
    · rename_i he
      exact ⟨fun _ => Or.inl he, fun _ => ⟨e, rfl⟩⟩
    · rename_i hne
      rw [h.live id]
      constructor
      · intro hh
        refine Or.inr ⟨hh, fun hkk => ?_⟩
        rw [hkk, hfree] at hh
        cases hh
      · rintro (he | ⟨hh, -⟩)
        · exact absurd he hne
        · exact hh
  · simp only [Registers.recsOf, if_pos ha, hfree, insertRecs]
    rfl

/-- An event that beats the holder of its slot takes its place. -/
theorem Shows.takeOver {old : Event} (h : Shows fields s b) (ht : e.id ∉ s.tombstones.ids)
    (hkey : (rules fields).key old.id = (rules fields).key e.id) (ho : s.byId.lookup old.id = some old)
    (hb : (rules fields).beats e.id old.id) :
    Shows fields (((s.withSlot e).without old).stored e) (Registers.put (rules fields) b e.id) ∧
      insertRecs e (.inserted (some old)) = Registers.recsOf (rules fields) b (.put e.id) := by
  have hh : b.holder ((rules fields).key e.id) = some old.id := by
    rw [← hkey]
    exact h.holder_of_lookup ho
  have ha : Registers.Accepts (rules fields) b e.id := by
    refine ⟨fun hm => ht ((h.mem_buried _).1 hm), fun u hu => ?_⟩
    rw [hh] at hu
    cases hu
    exact hb
  refine ⟨h.store ha (fun id => ?_) (withSlot_tombstones s e), ?_⟩
  · rw [stored_lookup, without_lookup, withSlot_byId]
    split
    · rename_i he
      exact ⟨fun _ => Or.inl he, fun _ => ⟨e, rfl⟩⟩
    · rename_i hne
      constructor
      · rintro ⟨y, hy⟩
        split at hy
        · cases hy
        · rename_i hno
          have hhy := h.holder_of_lookup hy
          refine Or.inr ⟨hhy, fun hkk => hno ?_⟩
          rw [hkk, hh] at hhy
          exact (Option.some.inj hhy).symm
      · rintro (he | ⟨hhy, hkk⟩)
        · exact absurd he hne
        · obtain ⟨y, hy⟩ := (h.live id).2 hhy
          refine ⟨y, ?_⟩
          rw [if_neg, hy]
          rintro rfl
          exact hkk hkey
  · simp only [Registers.recsOf, if_pos ha, hh, insertRecs]
    rfl

/-- The index inserts as the board does, and logs what the board logs. -/
theorem Shows.insert (h : Shows fields s b) (hF : Fields E fields) (hI : Inv E s) (hA : Agree E)
    (hE : E e) :
    Shows fields (s.insert e).2 (Registers.put (rules fields) b e.id) ∧
      insertRecs e (s.insert e).1 = Registers.recsOf (rules fields) b (.put e.id) := by
  have hkeys := fun {a : Event} (ha : E a) => hF.key_eq_iff ha hE
  have hc := insert_cases hI hA hE
  generalize s.insert e = p at hc ⊢
  obtain ⟨o, s'⟩ := p
  simp only at hc ⊢
  cases hc with
  | deleted ht => exact h.refuse (fun ha => ha.1 ((h.mem_buried _).2 ht)) (fun _ => Iff.rfl) rfl
  | lostRace old hr hl hk hb =>
    obtain ⟨hEo, -⟩ := hI.mem _ _ hl
    have hh := h.holder_of_lookup hl
    rw [(hkeys hEo).2 (Or.inr ⟨hr, hk⟩)] at hh
    exact h.refuse (fun ha => hb ((hF.beats_iff hE hEo).1 (ha.2 _ hh))) (fun _ => Iff.rfl) rfl
  | duplicate old ht hr hl =>
    refine h.refuse (fun ha => (rules fields).irrefl _ (ha.2 _ (h.holder_of_lookup hl))) (fun id => ?_) rfl
    rw [putId_lookup]
    split
    · rename_i he
      rw [he, hl]
      simp
    · rfl
  | fresh ht hl hk =>
    refine h.take ht (Option.eq_none_iff_forall_ne_some.2 fun id hid => ?_)
    -- a live event in the slot would have the id or the key
    obtain ⟨y, hy⟩ := h.lookup_of_holder hid
    obtain ⟨hEy, rfl⟩ := hI.mem _ _ hy
    rcases (hkeys hEy).1 (h.own _ _ hid) with he | ⟨hr, hky⟩
    · rw [he, hl] at hy
      cases hy
    · exact hk hr y hy hky
  | replaced old ht hr hl ho hk hb =>
    obtain ⟨hEo, -⟩ := hI.mem _ _ ho
    exact h.takeOver ht ((hkeys hEo).2 (Or.inr ⟨hr, hk⟩)) ho ((hF.beats_iff hE hEo).2 hb)

/-! ## Removals -/

theorem Shows.internalRemove (h : Shows fields s b) (hI : Inv E s) (id : Bytes32) (skip : Bool) :
    Shows fields (s.internalRemove id skip).2 (Registers.drop (rules fields) b id) := by
  rcases hI.internalRemove_eq id skip with ⟨hn, he⟩ | ⟨y, rfl, hy, he⟩
  · rw [he, Registers.drop_of_ne]
    · exact h
    · intro hh
      obtain ⟨y, hy⟩ := (h.live id).2 hh
      rw [hn] at hy
      cases hy
  · have hh := h.holder_of_lookup hy
    have hlook : ∀ id, (s.internalRemove y.id skip).2.byId.lookup id =
        if id = y.id then none else s.byId.lookup id := by
      intro id
      rw [he]
      simp only
      split
      · exact without_lookup s y id
      · exact without_lookup s y id
    have htomb : (s.internalRemove y.id skip).2.tombstones = s.tombstones := by
      rw [he]
      simp only
      split <;> rfl
    refine ⟨fun id => ?_, fun k id hk => ?_, ?_, by rw [htomb]; exact h.ordered⟩
    · rw [hlook]
      by_cases hkk : (rules fields).key id = (rules fields).key y.id
      · rw [hkk, Registers.drop_holder_of_holds hh]
        split
        · simp
        · rename_i hne
          rw [h.live id, hkk, hh]
          constructor
          · exact fun h' => absurd (Option.some.inj h').symm hne
          · intro h'
            cases h'
      · rw [if_neg (fun he => hkk (by rw [he])), Registers.drop_holder_ne b hkk]
        exact h.live id
    · by_cases hky : k = (rules fields).key y.id
      · rw [hky, Registers.drop_holder_of_holds hh] at hk
        cases hk
      · rw [Registers.drop_holder_ne b hky] at hk
        exact h.own k id hk
    · rw [Registers.drop_buried, htomb]
      exact h.buried

theorem Shows.tombstone {b' : Board Bytes32 Slot} (h : Shows fields s b) (id : Bytes32)
    (hholder : b'.holder = b.holder)
    (hburied : b'.buried = Registers.push (rules fields) b.buried id) :
    Shows fields (s.tombstone id) b' := by
  obtain ⟨h1, h2⟩ := Tombstones.insert_order h.ordered id (rules fields) rfl
  refine ⟨fun i => ?_, fun k i hk => ?_, ?_, h2⟩
  · rw [hholder]
    exact h.live i
  · rw [hholder] at hk
    exact h.own k i hk
  · rw [hburied, h.buried]
    exact h1.symm

theorem Shows.deleteById (h : Shows fields s b) (hI : Inv E s) (id : Bytes32) :
    Shows fields (s.deleteById id).2 (Registers.bury (rules fields) b id) := by
  refine (h.internalRemove hI id false).tombstone id rfl ?_
  rw [Registers.drop_buried]
  rfl

theorem Shows.bury (h : Shows fields s b) (hI : Inv E s) (id : Bytes32) :
    Shows fields ((s.tombstone id).remove id).2 (Registers.bury (rules fields) b id) := by
  have ht : Shows fields (s.tombstone id)
      { b with buried := Registers.push (rules fields) b.buried id } := h.tombstone id rfl rfl
  have hd := ht.internalRemove (hI.tombstone id) id true
  have heq : Registers.drop (rules fields) { b with buried := Registers.push (rules fields) b.buried id } id =
      Registers.bury (rules fields) b id := by
    unfold Registers.bury Registers.drop
    split <;> rfl
  rw [heq] at hd
  exact hd

end
end Index
end Memlay

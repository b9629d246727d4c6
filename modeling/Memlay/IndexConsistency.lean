import Memlay.IndexSets

/-!
# The secondary indexes agree with `by_id`

One caller at a time, any of the four public writes (`Edit`).  In every state a
set holds exactly the ids of the live events whose fields call for it, in order,
and a live replaceable event is alone with its key and holds its slot
(`Consistent`).

`Filed` is the invariant.  Beside the two directions it says that the entries of
one id are one object (`same`), and that what a set holds was inserted by the run:
a removal finds an entry by time and id, so it takes the right one out only
because equal ids have equal fields.
-/

namespace Memlay

namespace Index

/-! ## The sets after a walk over an event's buckets -/

section
variable {f : Bucket → List Event} {e x : Event} {b : Bucket}

/-- Each set takes the event once for every time it is visited. -/
theorem addSets_apply (f : Bucket → List Event) (e : Event) (b : Bucket) :
    addSets f e b = (setInsert e)^[e.buckets.count b] (f b) :=
  foldl_update_apply (setInsert e) e.buckets f b

theorem dropSets_apply (f : Bucket → List Event) (e : Event) (b : Bucket) :
    dropSets f e b = (setRemove e)^[e.buckets.count b] (f b) :=
  foldl_update_apply (setRemove e) e.buckets f b

/-- The walks keep the order of the sets. -/
theorem sortedSets_addSets (h : SortedSets f) (e : Event) : SortedSets (addSets f e) := by
  intro b
  rw [addSets_apply]
  exact Function.Iterate.rec (List.Pairwise Event.Beats) (h b) (fun _ hl => sorted_setInsert e hl) _

theorem sorted_iterate_setRemove {l : List Event} (h : l.Pairwise Event.Beats) (e : Event) (n : Nat) :
    ((setRemove e)^[n] l).Pairwise Event.Beats :=
  Function.Iterate.rec (List.Pairwise Event.Beats) h (fun _ hl => sorted_setRemove e hl) n

theorem sortedSets_dropSets (h : SortedSets f) (e : Event) : SortedSets (dropSets f e) := by
  intro b
  rw [dropSets_apply]
  exact sorted_iterate_setRemove (h b) e _

/-- Only that event comes in. -/
theorem mem_of_mem_addSets (h : x ∈ addSets f e b) : x = e ∨ x ∈ f b := by
  rw [addSets_apply] at h
  refine Function.Iterate.rec (fun l => x ∈ l → x = e ∨ x ∈ f b) Or.inr (fun l hl hx => ?_) _ h
  exact (mem_of_mem_setInsert hx).elim Or.inl hl

theorem mem_addSets_of_mem (e : Event) (h : x ∈ f b) : x ∈ addSets f e b := by
  rw [addSets_apply]
  exact Function.Iterate.rec (fun l => x ∈ l) h (fun l hl => mem_setInsert_of_mem e hl) _

/-- A set the walk visits has an entry of that id. -/
theorem exists_mem_addSets (f : Bucket → List Event) (hb : b ∈ e.buckets) :
    ∃ x ∈ addSets f e b, x.id = e.id := by
  obtain ⟨n, hn⟩ := Nat.exists_eq_succ_of_ne_zero (List.count_pos_iff.2 hb).ne'
  rw [addSets_apply, hn, Function.iterate_succ_apply']
  exact exists_mem_setInsert e _

theorem mem_of_mem_dropSets (h : x ∈ dropSets f e b) : x ∈ f b := by
  rw [dropSets_apply] at h
  exact Function.Iterate.rec (fun l => x ∈ l → x ∈ f b) id (fun l hl hx => hl (mem_of_mem_setRemove hx)) _ h

/-- Entries of other ids stay. -/
theorem mem_dropSets_of_ne (h : x ∈ f b) (hid : x.id ≠ e.id) : x ∈ dropSets f e b := by
  rw [dropSets_apply]
  exact Function.Iterate.rec (fun l => x ∈ l) h (fun l hl => mem_setRemove_of_ne hl hid) _

/-- A set the walk visits is left without an entry of that time and id. -/
theorem not_tie_of_mem_dropSets (hf : SortedSets f) (hb : b ∈ e.buckets) (h : x ∈ dropSets f e b) :
    ¬ (e.createdAt = x.createdAt ∧ e.id = x.id) := by
  obtain ⟨n, hn⟩ := Nat.exists_eq_succ_of_ne_zero (List.count_pos_iff.2 hb).ne'
  rw [dropSets_apply, hn, Function.iterate_succ_apply'] at h
  exact ((mem_setRemove_iff (sorted_iterate_setRemove (hf b) e n)).1 h).2

end

/-! ## The invariant -/

/-- The sets against `by_id`. -/
structure Filed (E : Event → Prop) (s : Index) : Prop where
  inSets : InSets E s.sets
  sorted : SortedSets s.sets
  noOrphan : ∀ b, ∀ x ∈ s.sets b, (s.byId.lookup x.id).isSome
  complete : ∀ id e, s.byId.lookup id = some e → ∀ b ∈ e.buckets, ∃ x ∈ s.sets b, x.id = id
  /-- the entries of one id are one object -/
  same : ∀ b b', ∀ x ∈ s.sets b, ∀ y ∈ s.sets b', x.id = y.id → x = y

theorem filed_new (E : Event → Prop) : Filed E new where
  inSets := inSets_empty
  sorted := fun _ => List.Pairwise.nil
  noOrphan := fun _ _ h => by cases h
  complete := by intro id e h; simp [new] at h
  same := fun _ _ _ h => by cases h

section
variable {E : Event → Prop} {s : Index} {e : Event}

theorem withSlot_sets (s : Index) (e : Event) : (s.withSlot e).sets = s.sets := by
  unfold withSlot
  split <;> rfl

/-- A replacement slot is no matter of the sets. -/
theorem Filed.withSlot (h : Filed E s) (e : Event) : Filed E (s.withSlot e) := by
  refine ⟨?_, ?_, ?_, ?_, ?_⟩ <;> simp only [withSlot_sets, withSlot_byId]
  · exact h.inSets
  · exact h.sorted
  · exact h.noOrphan
  · exact h.complete
  · exact h.same

/-- A second copy of a live event: its fields call for the same sets. -/
theorem Filed.putId (h : Filed E s) (hI : Inv E s) (hA : Agree E) (hE : E e) {old : Event}
    (hl : s.byId.lookup e.id = some old) : Filed E (s.putId e) := by
  refine ⟨h.inSets, h.sorted, fun b x hx => ?_, fun id y hy b hb => ?_, h.same⟩
  · rw [putId_lookup]
    split
    · rfl
    · exact h.noOrphan b x hx
  · rw [putId_lookup] at hy
    split at hy
    · rename_i hid
      cases hy
      obtain ⟨hEo, hido⟩ := hI.mem _ _ hl
      rw [hid]
      refine h.complete e.id old hl b ?_
      rwa [buckets_eq hA hEo hE hido]
    · exact h.complete id y hy b hb

/-- A removal takes the event out of `by_id` and out of every set that holds it. -/
theorem Filed.without (h : Filed E s) (hA : Agree E) {x : Event} (hE : E x) : Filed E (s.without x) := by
  refine ⟨inSets_dropSets h.inSets x, sortedSets_dropSets h.sorted x, fun b y hy => ?_,
    fun id y hy b hb => ?_, fun b b' y hy z hz =>
        h.same b b' y (mem_of_mem_dropSets hy) z (mem_of_mem_dropSets hz)⟩
  · have hmem := mem_of_mem_dropSets hy
    rw [without_lookup]
    by_cases hid : y.id = x.id
    · -- the removal found it: the fields of `y` are those of `x`
      obtain ⟨hEy, hb⟩ := h.inSets b y hmem
      rw [buckets_eq hA hEy hE hid] at hb
      exact absurd ⟨(hA x y hE hEy hid.symm).createdAt, hid.symm⟩ (not_tie_of_mem_dropSets h.sorted hb hy)
    · rw [if_neg hid]
      exact h.noOrphan b y hmem
  · rw [without_lookup] at hy
    split at hy
    · cases hy
    · rename_i hid
      obtain ⟨z, hz, hzid⟩ := h.complete id y hy b hb
      exact ⟨z, mem_dropSets_of_ne hz (by rw [hzid]; exact hid), hzid⟩

/-- A new id goes into `by_id` and into its sets. -/
theorem Filed.stored (h : Filed E s) (hE : E e) (hl : s.byId.lookup e.id = none) : Filed E (s.stored e) := by
  -- no entry has the new id: it would be live
  have hfresh : ∀ b, ∀ x ∈ s.sets b, x.id ≠ e.id := by
    intro b x hx hid
    have hlive := h.noOrphan b x hx
    rw [hid, hl] at hlive
    cases hlive
  refine ⟨inSets_addSets h.inSets hE, sortedSets_addSets h.sorted e, fun b x hx => ?_, fun id x hx b hb => ?_,
    fun b b' x hx y hy hid => ?_⟩
  · rw [stored_lookup]
    split
    · rfl
    · rename_i hid
      rcases mem_of_mem_addSets hx with rfl | hx
      · exact absurd rfl hid
      · exact h.noOrphan b x hx
  · rw [stored_lookup] at hx
    split at hx
    · rename_i hid
      cases hx
      rw [hid]
      exact exists_mem_addSets s.sets hb
    · obtain ⟨y, hy, hyid⟩ := h.complete id x hx b hb
      exact ⟨y, mem_addSets_of_mem e hy, hyid⟩
  · rcases mem_of_mem_addSets hx with rfl | hx
    · rcases mem_of_mem_addSets hy with rfl | hy
      · rfl
      · exact absurd hid.symm (hfresh b' y hy)
    · rcases mem_of_mem_addSets hy with hye | hy
      · exact absurd (hid.trans (congrArg Event.id hye)) (hfresh b x hx)
      · exact h.same b b' x hx y hy hid

theorem Inserts.filed {o : InsertOutcome} {s' : Index} (hc : Inserts s e o s') (h : Filed E s) (hI : Inv E s)
    (hA : Agree E) (hE : E e) : Filed E s' := by
  cases hc with
  | deleted ht => exact h
  | lostRace old hr hl hk hb => exact h
  | duplicate old ht hr hl => exact h.putId hI hA hE hl
  | fresh ht hl hk =>
    refine (h.withSlot e).stored hE ?_
    rw [withSlot_byId]
    exact hl
  | replaced old ht hr hl ho hk hb =>
    refine ((h.withSlot e).without hA (hI.mem _ _ ho).1).stored hE ?_
    rw [without_lookup, withSlot_byId]
    split
    · rfl
    · exact hl

theorem Filed.internalRemove (h : Filed E s) (hI : Inv E s) (hA : Agree E) (id : Bytes32) (skip : Bool) :
    Filed E (s.internalRemove id skip).2 := by
  rcases hI.internalRemove_eq id skip with ⟨-, he⟩ | ⟨x, rfl, hx, he⟩
  · rw [he]
    exact h
  · have hw := h.without hA (hI.mem _ _ hx).1
    rw [he]
    simp only
    split
    · exact ⟨hw.inSets, hw.sorted, hw.noOrphan, hw.complete, hw.same⟩
    · exact hw

end

/-! ## Runs -/

/-- A write of the index's public interface. -/
inductive Edit where
  | insert (e : Event)
  | remove (id : Bytes32)
  | deleteById (id : Bytes32)
  | tombstone (id : Bytes32)
deriving DecidableEq

/-- One write. -/
def edit (s : Index) : Edit → Index
  | .insert e => (s.insert e).2
  | .remove id => (s.remove id).2
  | .deleteById id => (s.deleteById id).2
  | .tombstone id => s.tombstone id

def editStep (s : Index) (c : Edit) : Option Index := some (s.edit c)

/-- The events a run offers to the index. -/
def Offered (cs : List Edit) (e : Event) : Prop := Edit.insert e ∈ cs

/-- The step lemma: one case for each write. -/
theorem filed_edit {cs : List Edit} (hA : Agree (Offered cs)) {s : Index} {c : Edit} (hc : c ∈ cs)
    (h : Inv (Offered cs) s ∧ Filed (Offered cs) s) :
    Inv (Offered cs) (s.edit c) ∧ Filed (Offered cs) (s.edit c) := by
  obtain ⟨hI, hF⟩ := h
  cases c with
  | insert e => exact ⟨hI.insert hA hc, (insert_cases hI hA hc).filed hF hI hA hc⟩
  | remove id => exact ⟨hI.internalRemove id true, hF.internalRemove hI hA id true⟩
  | deleteById id =>
    have hF' := hF.internalRemove hI hA id false
    exact ⟨(hI.internalRemove id false).tombstone id,
      ⟨hF'.inSets, hF'.sorted, hF'.noOrphan, hF'.complete, hF'.same⟩⟩
  | tombstone id => exact ⟨hI.tombstone id, ⟨hF.inSets, hF.sorted, hF.noOrphan, hF.complete, hF.same⟩⟩

/-- The run lemma. -/
theorem run_filed {cs : List Edit} (hA : Agree (Offered cs)) {s : Index}
    (hs : Machine.run editStep new cs = some s) : Inv (Offered cs) s ∧ Filed (Offered cs) s := by
  refine Machine.run_invariant (I := fun s => Inv (Offered cs) s ∧ Filed (Offered cs) s) ?_ cs new s hs
    (Machine.along_and_mem cs new (Machine.along_of_forall (C := fun _ _ => True) cs new
      fun _ _ _ => trivial)) ⟨inv_new _, filed_new _⟩
  rintro s c s' hstep ⟨-, hc⟩ h
  cases hstep
  exact filed_edit hA hc h

/-- The secondary indexes, the order of their sets and the replacement slots, as
`by_id` has it. -/
structure Consistent (s : Index) : Prop where
  held : ∀ b id, (∃ x ∈ s.sets b, x.id = id) ↔ ∃ e, s.byId.lookup id = some e ∧ e.CallsFor b
  oneShard : ∀ id e, s.byId.lookup id = some e →
    ∃! shard, shard < oldestShards ∧ ∃ x ∈ s.sets (.oldest shard), x.id = id
  sorted : ∀ b, (s.sets b).Pairwise Event.Beats
  slot : ∀ id e, s.byId.lookup id = some e → e.isReplaceable = true →
    s.byReplaceable.lookup e.replacementKey = some e.id
  only : ∀ id id' e e', s.byId.lookup id = some e → s.byId.lookup id' = some e' → e.isReplaceable = true →
    e'.replacementKey = e.replacementKey → e' = e

/-- A set holds exactly the live events whose fields call for it. -/
theorem Filed.held {E : Event → Prop} {s : Index} (h : Filed E s) (hI : Inv E s) (hA : Agree E) (b : Bucket)
    (id : Bytes32) : (∃ x ∈ s.sets b, x.id = id) ↔ ∃ e, s.byId.lookup id = some e ∧ e.CallsFor b := by
  constructor
  · rintro ⟨x, hx, rfl⟩
    obtain ⟨e, he⟩ := Option.isSome_iff_exists.1 (h.noOrphan b x hx)
    obtain ⟨hEx, hb⟩ := h.inSets b x hx
    obtain ⟨hE, hid⟩ := hI.mem _ _ he
    rw [buckets_eq hA hEx hE hid.symm, mem_buckets_iff] at hb
    exact ⟨e, he, hb⟩
  · rintro ⟨e, he, hb⟩
    exact h.complete id e he b (mem_buckets_iff.2 hb)

/-- Every state of every sequential run is consistent. -/
theorem run_consistent (cs : List Edit) (hA : Agree (Offered cs)) (s : Index)
    (hs : Machine.run editStep new cs = some s) : Consistent s := by
  obtain ⟨hI, hF⟩ := run_filed hA hs
  have hheld := hF.held hI hA
  refine ⟨hheld, fun id e he => ?_, hF.sorted, fun id e he hr => ?_, fun id id' e e' he he' hr hk => ?_⟩
  · refine ⟨oldestShard e.id, ⟨oldestShard_lt e.id, (hheld _ id).2 ⟨e, he, rfl⟩⟩, ?_⟩
    rintro shard ⟨-, hin⟩
    obtain ⟨x, hx, hb⟩ := (hheld _ id).1 hin
    rw [he] at hx
    cases hx
    exact hb.symm
  · rw [(hI.mem _ _ he).2]
    exact hI.slot id e he hr
  · obtain ⟨-, rfl⟩ := hI.mem _ _ he
    obtain ⟨-, rfl⟩ := hI.mem _ _ he'
    exact (hI.unique he he' hr hk.symm).symm

/-- A replacement, a stale slot, a second copy of a live event and a deletion. -/
def busyRun : List Edit :=
  [.insert (relayList 1 10), .insert (relayList 2 20), .remove 2, .insert (relayList 1 10), .insert (note 0),
    .insert (note 1), .tombstone 7, .deleteById (note 0).id]

theorem run_consistent_busyRun : ∃ s, Machine.run editStep new busyRun = some s ∧ Consistent s := by
  refine ⟨_, rfl, run_consistent busyRun ?_ _ rfl⟩
  intro a b ha hb hid
  have hcases : ∀ e, Offered busyRun e → e = relayList 1 10 ∨ e = relayList 2 20 ∨ ∃ n, e = note n := by
    intro e he
    simp only [Offered, busyRun, List.mem_cons, Edit.insert.injEq, reduceCtorEq, List.not_mem_nil, or_false,
      false_or] at he
    rcases he with rfl | rfl | rfl | rfl | rfl <;> simp
  rcases hcases a ha with rfl | rfl | ⟨m, rfl⟩ <;> rcases hcases b hb with rfl | rfl | ⟨n, rfl⟩
  · exact ⟨rfl, rfl, rfl, rfl, rfl⟩
  · exact absurd hid (by decide)
  · exact absurd hid (by show (1 : Bytes32) ≠ (note 0).id; decide)
  · exact absurd hid (by decide)
  · exact ⟨rfl, rfl, rfl, rfl, rfl⟩
  · exact absurd hid (by show (2 : Bytes32) ≠ (note 0).id; decide)
  · exact absurd hid (by show (note 0).id ≠ (1 : Bytes32); decide)
  · exact absurd hid (by show (note 0).id ≠ (2 : Bytes32); decide)
  · exact note_sameFields m n

end Index
end Memlay

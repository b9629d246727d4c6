import Memlay.DeletionExact

/-!
# Deleted stays deleted

One process, from an empty store, any order of inserts, batches, deletion requests,
evictions and checkpoints.  `Ledger` is the store beside the ids that the requests
have reported so far.  As long as they fit in the tombstone set, the set holds exactly
them (`Buried`), so none of them is live and an insert of one is refused
(`run_staysDeleted`).
-/

namespace Memlay
namespace Store

open Index (Kept Agree LiveUntombed)

/-- The store, and every id reported in `deleted_ids` so far. -/
structure Ledger where
  store : Store
  deleted : List Bytes32

namespace Ledger

/-- What a call reports as deleted. -/
def reported (st : Store) : Call → List Bytes32
  | .applyDeletion ids coordinates author until_ =>
    (st.applyDeletion ids coordinates author until_).1.deletedIds
  | _ => []

def step (x : Ext) (maxBytes : Usize) (l : Ledger) (c : Call) : Option Ledger :=
  (call x maxBytes l.store c).map fun st => ⟨st, l.deleted ++ reported l.store c⟩

def start (f : Files) : Ledger := ⟨Store.new f, []⟩

end Ledger

/-- The events that the calls of a run offer to the store. -/
def Offered (cs : List Call) (e : Event) : Prop :=
  ∃ c ∈ cs, c = .insert e ∨ ∃ es, c = .insertBatch es ∧ e ∈ es

/-- Not a load: the process is not restarted. -/
def Call.Online : Call → Prop
  | .loadFromDisk _ => False
  | _ => True

/-! ## The tombstones and the reported ids -/

/-- The tombstones are the reported ids, each of an event of the run. -/
structure Buried (E : Event → Prop) (l : Ledger) : Prop where
  kept : Kept E l.store.index
  ids : l.store.index.tombstones.ids = l.deleted.toFinset
  known : ∀ id ∈ l.deleted, ∃ a, E a ∧ a.id = id

section
variable {x : Ext} {maxBytes : Usize} {E : Event → Prop} {l l' : Ledger} {c : Call}

theorem insert_tombstones (st : Store) (e : Event) : (st.insert e).2.index.tombstones = st.index.tombstones := by
  rw [insert_index]
  split
  · rfl
  · exact Index.insert_tombstones _ e

theorem insertBatch_tombstones (st : Store) (es : List Event) :
    (st.insertBatch es).2.index.tombstones = st.index.tombstones := by
  have hgen : ∀ p : (Nat × List Event) × Store,
      (es.foldl batchEvent p).2.index.tombstones = p.2.index.tombstones := by
    induction es with
    | nil => exact fun p => rfl
    | cons e es ih =>
      intro p
      rw [List.foldl_cons, ih, batchEvent_index]
      split
      · rfl
      · exact Index.insert_tombstones _ e
  exact hgen _

/-- Only a deletion request and a load touch the tombstones. -/
theorem call_tombstones {st st' : Store} (h : Kept E st.index) (hA : Agree E) (hon : c.Online)
    (hno : ∀ ids coordinates author until_, c ≠ .applyDeletion ids coordinates author until_)
    (hs : call x maxBytes st c = some st') : st'.index.tombstones = st.index.tombstones := by
  cases c with
  | insert e =>
    cases hs
    exact insert_tombstones st e
  | insertBatch es =>
    cases hs
    exact insertBatch_tombstones st es
  | applyDeletion ids coordinates author until_ => exact absurd rfl (hno ids coordinates author until_)
  | maybeEvict processMem amplification =>
    cases hs
    exact h.maybeEvict_tombstones hA maxBytes processMem amplification
  | checkpoint es =>
    simp only [call] at hs
    split at hs
    · cases hs
      rw [getD_checkpoint_index]
    · cases hs
  | loadFromDisk es => exact hon.elim

/-- A deletion request: its targets are live, so they are new among the reported ids. -/
theorem Buried.applyDeletion (h : Buried E l) (hA : Agree E) (ids : List Bytes32) (coordinates : List Coordinate)
    (author : Bytes32) (until_ : Nat)
    (hcap : (l.deleted ++ (l.store.applyDeletion ids coordinates author until_).1.deletedIds).toFinset.card ≤
      maxTombstones) :
    Buried E ⟨(l.store.applyDeletion ids coordinates author until_).2,
      l.deleted ++ (l.store.applyDeletion ids coordinates author until_).1.deletedIds⟩ := by
  let req : DeletionRequest := ⟨ids.toFinset, coordinates⟩
  have hids : ids.toFinset = req.ids := rfl
  obtain ⟨her, hrep⟩ := applyDeletion_erases author until_ h.kept hA hids
  have hdisj := disjoint_targets req author until_ h.kept
  have hroom : l.store.index.tombstones.len + (l.store.index.targets req author until_).card ≤ maxTombstones := by
    rw [List.toFinset_append, hrep, ← h.ids, Finset.card_union_of_disjoint hdisj] at hcap
    exact hcap
  have hdel := applyDeletion_deletes h.kept hA hids hroom
  refine ⟨kept_applyDeletion h.kept hA ids coordinates author until_, ?_, ?_⟩
  · show (l.store.applyDeletion ids coordinates author until_).2.index.tombstones.ids = _
    rw [hdel.buried, h.ids, ← hrep, List.toFinset_append]
  · intro id hid
    rcases List.mem_append.1 hid with hid | hid
    · exact h.known id hid
    · obtain ⟨e, he⟩ := Option.isSome_iff_exists.1 (her.live id hid)
      exact ⟨e, h.kept.inv.mem _ _ he⟩

theorem Buried.step (h : Buried E l) (hA : Agree E) (hin : c.In x E l.store) (hon : c.Online)
    (hs : Ledger.step x maxBytes l c = some l') (hcap : l'.deleted.toFinset.card ≤ maxTombstones) :
    Buried E l' := by
  unfold Ledger.step at hs
  obtain ⟨st', hst, rfl⟩ := Option.map_eq_some_iff.1 hs
  by_cases hc : ∃ ids coordinates author until_, c = .applyDeletion ids coordinates author until_
  · obtain ⟨ids, coordinates, author, until_, rfl⟩ := hc
    cases hst
    exact h.applyDeletion hA ids coordinates author until_ hcap
  · have hrep : Ledger.reported l.store c = [] := by
      unfold Ledger.reported
      split
      · exact absurd ⟨_, _, _, _, rfl⟩ hc
      · rfl
    rw [hrep, List.append_nil]
    have hno : ∀ ids coordinates author until_, c ≠ .applyDeletion ids coordinates author until_ :=
      fun ids coordinates author until_ heq => hc ⟨ids, coordinates, author, until_, heq⟩
    refine ⟨kept_call h.kept hA hin hst, ?_, h.known⟩
    show st'.index.tombstones.ids = _
    rw [call_tombstones h.kept hA hon hno hst]
    exact h.ids

end

/-! ## Runs -/

/-- The events of the run that can be stored. -/
def Storable (cs : List Call) (e : Event) : Prop := Offered cs e ∧ e.isEphemeral = false

theorem agree_storable {cs : List Call} (hA : Agree (Offered cs)) : Agree (Storable cs) :=
  fun a b ha hb => hA a b ha.1 hb.1

theorem in_storable {x : Ext} {cs : List Call} {c : Call} (hc : c ∈ cs) (hon : c.Online) (st : Store) :
    c.In x (Storable cs) st := by
  cases c with
  | insert e => exact fun he => ⟨⟨_, hc, Or.inl rfl⟩, he⟩
  | insertBatch es => exact fun e hes he => ⟨⟨_, hc, Or.inr ⟨es, rfl, hes⟩⟩, he⟩
  | applyDeletion ids coordinates author until_ => trivial
  | maybeEvict processMem amplification => trivial
  | checkpoint es => trivial
  | loadFromDisk es => exact hon.elim

/-- The run lemma: reported ids only become more, so that they fit at the end means
that they fitted all along. -/
theorem run_buried {x : Ext} {maxBytes : Usize} {f : Files} {cs : List Call} (hon : ∀ c ∈ cs, c.Online)
    (hA : Agree (Offered cs)) {l : Ledger}
    (hrun : Machine.run (Ledger.step x maxBytes) (Ledger.start f) cs = some l)
    (hcap : l.deleted.toFinset.card ≤ maxTombstones) : Buried (Storable cs) l := by
  refine Machine.run_invariant (I := fun l : Ledger => l.deleted.toFinset.card ≤ maxTombstones →
      Buried (Storable cs) l)
    ?_ cs _ l hrun (Machine.along_and_mem cs _ (Machine.along_of_forall (C := fun _ _ => True) cs _
      fun _ _ _ => trivial)) (fun _ => ⟨Index.kept_new _, rfl, by simp [Ledger.start]⟩) hcap
  rintro l c l' hstep ⟨-, hc⟩ ih hcap'
  have hle : l.deleted.toFinset.card ≤ l'.deleted.toFinset.card := by
    obtain ⟨st', -, rfl⟩ := Option.map_eq_some_iff.1 hstep
    refine Finset.card_le_card ?_
    rw [List.toFinset_append]
    exact Finset.subset_union_left
  exact (ih (hle.trans hcap')).step (agree_storable hA) (in_storable hc (hon c hc) l.store) (hon c hc) hstep hcap'

/-- What holds of the reported ids: none is live, and an insert of an event with one
of them, whatever the copy, is refused and changes nothing. -/
structure StaysDeleted (cs : List Call) (l : Ledger) : Prop where
  notLive : ∀ id ∈ l.deleted, l.store.index.byId.lookup id = none
  refused : ∀ e, Agree (fun a => Offered cs a ∨ a = e) → e.id ∈ l.deleted → l.store.insert e = (.deleted, l.store)
  untombed : LiveUntombed l.store.index

theorem Buried.staysDeleted {cs : List Call} {l : Ledger} (h : Buried (Storable cs) l) : StaysDeleted cs l := by
  have htomb : ∀ id ∈ l.deleted, id ∈ l.store.index.tombstones.ids := by
    intro id hid
    rw [h.ids]
    exact List.mem_toFinset.2 hid
  refine ⟨fun id hid => ?_, fun e hA hid => ?_, h.kept.untombed⟩
  · cases hl : l.store.index.byId.lookup id with
    | none => rfl
    | some e => exact absurd (htomb id hid) (h.kept.untombed id e hl)
  · -- the copy has the kind of the event that was deleted, so it is not ephemeral
    obtain ⟨a, ⟨hoff, heph⟩, haid⟩ := h.known e.id hid
    have hsame := hA a e (Or.inl hoff) (Or.inr rfl) haid
    have he : ¬ e.isEphemeral = true := by
      unfold Event.isEphemeral at heph ⊢
      rw [← hsame.kind, heph]
      exact Bool.false_ne_true
    have hcon : l.store.index.tombstones.contains e.id = true := (h.kept.inv.contains_iff e.id).2 (htomb e.id hid)
    unfold Store.insert Index.insert
    rw [if_neg he, if_pos hcon]

/-- In every state of every run: as long as no more ids were deleted than there are
tombstones, what was reported as deleted stays deleted. -/
theorem run_staysDeleted (x : Ext) (maxBytes : Usize) (f : Files) (cs : List Call) (hon : ∀ c ∈ cs, c.Online)
    (hA : Agree (Offered cs)) (l : Ledger)
    (hrun : Machine.run (Ledger.step x maxBytes) (Ledger.start f) cs = some l)
    (hcap : l.deleted.toFinset.card ≤ maxTombstones) : StaysDeleted cs l :=
  (run_buried hon hA hrun hcap).staysDeleted

/-- A note is inserted and deleted by its author. -/
def noteDeleted : List Call := [.insert (note 0), .applyDeletion [(note 0).id] [] (note 0).pubkey 1700000001]

theorem run_staysDeleted_noteDeleted :
    ∃ l, Machine.run (Ledger.step (Ext.known [] []) 0) (Ledger.start .empty) noteDeleted = some l ∧
      l.deleted = [(note 0).id] ∧ StaysDeleted noteDeleted l := by
  have hdel : ([] ++ (((Store.new .empty).insert (note 0)).2.applyDeletion [(note 0).id] [] (note 0).pubkey
      1700000001).1.deletedIds) = [(note 0).id] := by decide
  refine ⟨_, rfl, hdel, run_staysDeleted (Ext.known [] []) 0 .empty noteDeleted ?_ ?_ _ rfl ?_⟩
  · simp [noteDeleted, Call.Online]
  · have hone : ∀ e, Offered noteDeleted e → e = note 0 := by
      rintro e ⟨c, hc, h⟩
      simp only [noteDeleted, List.mem_cons, List.not_mem_nil, or_false] at hc
      rcases hc with rfl | rfl
      · rcases h with h | ⟨es, h, -⟩
        · exact (Call.insert.inj h).symm
        · cases h
      · rcases h with h | ⟨es, h, -⟩ <;> cases h
    intro a b ha hb _
    rw [hone a ha, hone b hb]
    exact ⟨rfl, rfl, rfl, rfl, rfl⟩
  · have hcard : [(note 0).id].toFinset.card ≤ maxTombstones := by decide
    rw [← hdel] at hcard
    exact hcard

end Store
end Memlay

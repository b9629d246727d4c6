import Memlay.IndexConsistency
import Memlay.Checkpoint

/-!
# Runs of the store's operations (`src/store/mod.rs`)

One call after another: `insert`, `insert_batch`, `apply_deletion`, an eviction
round, a checkpoint, a load.  What the memory sampler measures (`process_mem`, the
amplification) is an input of the eviction round.

`Kept` is what holds of the index in every state of such a run (`run_kept`).
-/

namespace Memlay

/-! ## The remaining operations -/

namespace Store

/-- One event of a batch: number of events stored, replaced events, store. -/
def batchEvent (p : (Nat × List Event) × Store) (e : Event) : (Nat × List Event) × Store :=
  let ((inserted, replaced), st) := p
  if e.isEphemeral then p
  else
    match st.index.insert e with
    | (.inserted old, s) =>
      let st := { st with index := s }.append (.insert e.raw)
      let st := old.toList.foldl (fun st o => st.append (.delete o.id)) st
      ((inserted + 1, replaced ++ old.toList), st)
    | (.duplicate, s) => ((inserted, replaced), { st with index := s })
    | (.lostRace, s) => ((inserted, replaced), { st with index := s })
    | (.deleted, s) => ((inserted, replaced), { st with index := s })

/-- `Store::insert_batch` -/
def insertBatch (st : Store) (es : List Event) : (Nat × List Event) × Store :=
  es.foldl batchEvent ((0, []), st)

end Store

namespace Index

/-- Payload budget: the memory limit over the measured amplification, which is in
thousandths and taken as at least one. -/
def payloadBudget (maxBytes amplification : Usize) : Usize :=
  if maxBytes = 0 then 0
  else maxBytes * 1000 / (if amplification < 1000 then 1000 else amplification)

/-- `EVICT_CHUNK` -/
def evictChunk : Nat := 100

/-- The loop over the chunks of an eviction round. -/
def evictChunks (target maxBytes processMem : Usize) : List (List Event) → Index → Index
  | [], s => s
  | chunk :: chunks, s =>
    let s := chunk.foldl (fun s e => (s.remove e.id).2) s
    if s.memoryBytes ≤ target ∧ processMem ≤ maxBytes then s
    else evictChunks target maxBytes processMem chunks s

/-- An eviction round. -/
def maybeEvict (maxBytes processMem amplification : Usize) (s : Index) : Index :=
  if maxBytes = 0 then s
  else
    let target := payloadBudget maxBytes amplification * 90 / 100
    if target < s.memoryBytes ∨ maxBytes < processMem then
      let batchSize := if maxBytes < processMem then 5000 else 1000
      evictChunks target maxBytes processMem ((s.getOldest batchSize).toChunks evictChunk) s
    else s

end Index

/-! ## Calls -/

namespace Store

inductive Call where
  | insert (e : Event)
  | insertBatch (es : List Event)
  /-- `ids` is the order in which the set of ids is visited -/
  | applyDeletion (ids : List Bytes32) (coordinates : List Coordinate) (author : Bytes32) (until_ : Nat)
  | maybeEvict (processMem amplification : Usize)
  /-- `es` is the order in which `iter_all` gives the live events -/
  | checkpoint (es : List Event)
  | loadFromDisk (es : List Event)
deriving DecidableEq

/-- Perform a call.  A checkpoint whose rotation fails changes nothing; a load whose
eviction loop does not end does not return. -/
def call (x : Ext) (maxBytes : Usize) (st : Store) : Call → Option Store
  | .insert e => some (st.insert e).2
  | .insertBatch es => some (st.insertBatch es).2
  | .applyDeletion ids coordinates author until_ => some (st.applyDeletion ids coordinates author until_).2
  | .maybeEvict processMem amplification =>
    some { st with index := st.index.maybeEvict maxBytes processMem amplification }
  | .checkpoint es => if es.Perm st.index.iterAll then some ((st.checkpoint es).getD st) else none
  | .loadFromDisk es => st.loadFromDisk x maxBytes es

/-- The events a call may store are of `E`. -/
def Call.In (x : Ext) (E : Event → Prop) (st : Store) : Call → Prop
  | .insert e => e.isEphemeral = false → E e
  | .insertBatch es => ∀ e ∈ es, e.isEphemeral = false → E e
  | .loadFromDisk _ => ∀ a ∈ diskRecs x st.files, a.In E
  | _ => True

end Store

/-! ## What every call keeps -/

namespace Index

structure Kept (E : Event → Prop) (s : Index) : Prop where
  inv : Inv E s
  filed : Filed E s
  untombed : LiveUntombed s
  ordered : s.tombstones.Ordered

/-- The empty index. -/
theorem kept_new (E : Event → Prop) : Kept E new :=
  ⟨inv_new E, filed_new E, liveUntombed_new, Tombstones.ordered_new⟩

section
variable {E : Event → Prop} {s : Index}

theorem Inv.internalRemove_tombstones (h : Inv E s) (id : Bytes32) (skip : Bool) :
    (s.internalRemove id skip).2.tombstones = s.tombstones := by
  rcases h.internalRemove_eq id skip with ⟨-, he⟩ | ⟨x, rfl, -, he⟩
  · rw [he]
  · rw [he]
    simp only
    split <;> rfl

/-- An insert keeps it. -/
theorem Kept.insert (h : Kept E s) (hA : Agree E) {e : Event} (hE : E e) : Kept E (s.insert e).2 := by
  have hc := insert_cases h.inv hA hE
  refine ⟨h.inv.insert hA hE, hc.filed h.filed h.inv hA hE, hc.liveUntombed h.untombed, ?_⟩
  rw [insert_tombstones]
  exact h.ordered

/-- So does a removal, with or without its slot. -/
theorem Kept.internalRemove (h : Kept E s) (hA : Agree E) (id : Bytes32) (skip : Bool) :
    Kept E (s.internalRemove id skip).2 := by
  refine ⟨h.inv.internalRemove id skip, h.filed.internalRemove h.inv hA id skip,
    h.untombed.internalRemove h.inv id skip, ?_⟩
  rw [h.inv.internalRemove_tombstones]
  exact h.ordered

theorem Kept.remove (h : Kept E s) (hA : Agree E) (id : Bytes32) : Kept E (s.remove id).2 :=
  h.internalRemove hA id true

theorem Kept.deleteById (h : Kept E s) (hA : Agree E) (id : Bytes32) : Kept E (s.deleteById id).2 := by
  have hr := h.internalRemove hA id false
  exact ⟨hr.inv.tombstone id,
    ⟨hr.filed.inSets, hr.filed.sorted, hr.filed.noOrphan, hr.filed.complete, hr.filed.same⟩,
    h.untombed.deleteById h.inv id, (hr.ordered.insert id).2⟩

/-- The tombstone first, the removal after it: a replayed deletion. -/
theorem Kept.bury (h : Kept E s) (hA : Agree E) (id : Bytes32) : Kept E ((s.tombstone id).remove id).2 := by
  have hI := h.inv.tombstone id
  have hF : Filed E (s.tombstone id) :=
    ⟨h.filed.inSets, h.filed.sorted, h.filed.noOrphan, h.filed.complete, h.filed.same⟩
  refine ⟨hI.internalRemove id true, hF.internalRemove hI hA id true, ?_, ?_⟩
  · intro id' y hy hm
    rw [remove_lookup] at hy
    split at hy
    · cases hy
    · rename_i hne
      unfold Index.remove at hm
      rw [hI.internalRemove_tombstones] at hm
      rcases Tombstones.mem_insert hm with heq | hm
      · exact hne heq
      · exact h.untombed id' y hy hm
  · unfold Index.remove
    rw [hI.internalRemove_tombstones]
    exact (h.ordered.insert id).2

/-! ### Evictions -/

/-- What each removal keeps, an eviction round keeps. -/
theorem maybeEvict_keeps {P : Index → Prop} (hP : ∀ s id, P s → P (s.remove id).2) {s : Index} (h : P s)
    (maxBytes processMem amplification : Usize) : P (s.maybeEvict maxBytes processMem amplification) := by
  have hchunk : ∀ (es : List Event) (s : Index), P s → P (es.foldl (fun s e => (s.remove e.id).2) s) := by
    intro es
    induction es with
    | nil => exact fun s hs => hs
    | cons e es ih => exact fun s hs => ih _ (hP s e.id hs)
  have hchunks : ∀ (target : Usize) (chunks : List (List Event)) (s : Index), P s →
      P (evictChunks target maxBytes processMem chunks s) := by
    intro target chunks
    induction chunks with
    | nil => exact fun s hs => hs
    | cons chunk chunks ih =>
      intro s hs
      unfold evictChunks
      simp only
      split
      · exact hchunk chunk s hs
      · exact ih _ (hchunk chunk s hs)
  unfold maybeEvict
  split
  · exact h
  · simp only
    split
    · exact hchunks _ _ s h
    · exact h

theorem Kept.maybeEvict (h : Kept E s) (hA : Agree E) (maxBytes processMem amplification : Usize) :
    Kept E (s.maybeEvict maxBytes processMem amplification) :=
  maybeEvict_keeps (fun _ id hs => hs.remove hA id) h maxBytes processMem amplification

theorem Kept.maybeEvict_tombstones (h : Kept E s) (hA : Agree E) (maxBytes processMem amplification : Usize) :
    (s.maybeEvict maxBytes processMem amplification).tombstones = s.tombstones :=
  (maybeEvict_keeps (P := fun s' => Kept E s' ∧ s'.tombstones = s.tombstones)
    (fun _ id hs => ⟨hs.1.remove hA id, (hs.1.inv.internalRemove_tombstones id true).trans hs.2⟩) ⟨h, rfl⟩
    maxBytes processMem amplification).2

/-- The rounds of an eviction at load are removals. -/
theorem Kept.evictTo {s' : Index} {target : Usize} {rounds : Nat} (h : Kept E s) (hA : Agree E)
    (hs : s.evictTo target rounds = some s') : Kept E s' := by
  induction rounds generalizing s with
  | zero => cases hs
  | succ rounds ih =>
    unfold Index.evictTo at hs
    split at hs
    · split at hs
      · cases hs
        exact h
      · exact ih (h.remove hA _) hs
    · cases hs
      exact h

/-- One record at load: an insert and its eviction. -/
theorem Kept.ingest {s' : Index} {maxBytes : Usize} {e : Event} (h : Kept E s) (hA : Agree E) (hE : E e)
    (hs : s.ingest maxBytes e = some s') : Kept E s' := by
  unfold Index.ingest at hs
  simp only at hs
  split at hs
  · exact (h.insert hA hE).evictTo hA hs
  · cases hs
    exact h.insert hA hE

end
end Index

namespace Store

open Index (Kept Agree)

section
variable {x : Ext} {E : Event → Prop} {maxBytes : Usize} {st st' : Store}

/-- What goes past the index leaves it alone, the rest is an insert. -/
theorem kept_insert (h : Kept E st.index) (hA : Agree E) {e : Event} (hE : e.isEphemeral = false → E e) :
    Kept E (st.insert e).2.index := by
  rw [insert_index]
  split
  · exact h
  · rename_i he
    exact h.insert hA (hE (eq_false_of_ne_true he))

theorem batchEvent_index (p : (Nat × List Event) × Store) (e : Event) :
    (batchEvent p e).2.index = if e.isEphemeral then p.2.index else (p.2.index.insert e).2 := by
  obtain ⟨⟨inserted, replaced⟩, st⟩ := p
  unfold batchEvent
  simp only
  split
  · rfl
  · cases hi : st.index.insert e with
    | mk o s =>
      cases o with
      | inserted old => cases old <;> rfl
      | duplicate => rfl
      | deleted => rfl
      | lostRace => rfl

/-- A batch is its events one by one. -/
theorem kept_insertBatch (h : Kept E st.index) (hA : Agree E) {es : List Event}
    (hE : ∀ e ∈ es, e.isEphemeral = false → E e) : Kept E (st.insertBatch es).2.index := by
  have hgen : ∀ p : (Nat × List Event) × Store, Kept E p.2.index → Kept E (es.foldl batchEvent p).2.index := by
    induction es with
    | nil => exact fun p hp => hp
    | cons e es ih =>
      intro p hp
      refine ih (fun a ha => hE a (List.mem_cons_of_mem e ha)) (batchEvent p e) ?_
      rw [batchEvent_index]
      split
      · exact hp
      · rename_i he
        exact hp.insert hA (hE e List.mem_cons_self (eq_false_of_ne_true he))
  exact hgen _ h

/-- A deletion is its targets one by one. -/
theorem kept_applyDeletion (h : Kept E st.index) (hA : Agree E) (ids : List Bytes32)
    (coordinates : List Coordinate)
    (author : Bytes32) (until_ : Nat) : Kept E (st.applyDeletion ids coordinates author until_).2.index :=
  applyDeletion_invariant (P := fun st => Kept E st.index) (fun _ _ id _ hst _ => hst.deleteById hA id) ids
    coordinates author until_ h

theorem checkpoint_index {es : List Event} (hs : st.checkpoint es = some st') : st'.index = st.index := by
  unfold checkpoint renameWal at hs
  split at hs
  · cases hs
  · cases hs
    rfl

theorem getD_checkpoint_index (st : Store) (es : List Event) : ((st.checkpoint es).getD st).index = st.index := by
  cases hs : st.checkpoint es with
  | none => rfl
  | some st' => exact checkpoint_index hs

/-- One operation replayed at load. -/
theorem kept_replayOp {s s' : Index} {a : Rec} (h : Kept E s) (hA : Agree E) (ha : a.In E)
    (hs : replayOp maxBytes s a = some s') : Kept E s' := by
  cases a with
  | put e => exact h.ingest hA ha hs
  | remove id =>
    cases hs
    exact h.remove hA id
  | bury id =>
    cases hs
    exact h.bury hA id

/-- A fold over events or records keeps what each of its rounds keeps. -/
theorem foldlM_keeps {α : Type} {f : Index → α → Option Index} {P : Index → Prop} {as : List α}
    (hstep : ∀ a ∈ as, ∀ s s', P s → f s a = some s' → P s') {s s' : Index} (h : P s)
    (hs : as.foldlM f s = some s') : P s' := by
  induction as generalizing s with
  | nil =>
    cases hs
    exact h
  | cons a as ih =>
    rw [List.foldlM_cons] at hs
    obtain ⟨s₁, h₁, hs⟩ := Option.bind_eq_some_iff.1 hs
    exact ih (fun b hb => hstep b (List.mem_cons_of_mem a hb)) (hstep a List.mem_cons_self s s₁ h h₁) hs

/-- A load is the snapshot's lines and then the operations of both segments. -/
theorem kept_loadFromDisk {es : List Event} (h : Kept E st.index) (hA : Agree E)
    (hE : ∀ a ∈ diskRecs x st.files, a.In E) (hs : st.loadFromDisk x maxBytes es = some st') :
    Kept E st'.index := by
  unfold loadFromDisk at hs
  obtain ⟨⟨applied, s⟩, hrep, hs⟩ := Option.bind_eq_some_iff.1 hs
  have hs' : st'.index = s := by
    simp only at hs
    split at hs
    · rw [← Option.some.inj hs, getD_checkpoint_index]
      rfl
    · rw [← Option.some.inj hs]
      rfl
  rw [hs']
  unfold replayFiles at hrep
  simp only at hrep
  obtain ⟨s₁, h₁, hrep⟩ := Option.bind_eq_some_iff.1 hrep
  obtain ⟨s₂, h₂, hrep⟩ := Option.bind_eq_some_iff.1 hrep
  cases hrep
  unfold diskRecs at hE
  have hk₁ : Kept E s₁ := by
    refine foldlM_keeps (fun e he s s' hk hi => hk.ingest hA ?_ hi) h h₁
    exact hE (.put e) (List.mem_append_left _ (List.mem_map_of_mem he))
  exact foldlM_keeps (fun a ha s s' hk hi => kept_replayOp hk hA (hE a (List.mem_append_right _ ha)) hi) hk₁ h₂

/-- The step lemma: one case for each call. -/
theorem kept_call {c : Call} (h : Kept E st.index) (hA : Agree E) (hin : c.In x E st)
    (hs : call x maxBytes st c = some st') : Kept E st'.index := by
  cases c with
  | insert e =>
    cases hs
    exact kept_insert h hA hin
  | insertBatch es =>
    cases hs
    exact kept_insertBatch h hA hin
  | applyDeletion ids coordinates author until_ =>
    cases hs
    exact kept_applyDeletion h hA ids coordinates author until_
  | maybeEvict processMem amplification =>
    cases hs
    exact h.maybeEvict hA maxBytes processMem amplification
  | checkpoint es =>
    simp only [call] at hs
    split at hs
    · cases hs
      rw [getD_checkpoint_index]
      exact h
    · cases hs
  | loadFromDisk es => exact kept_loadFromDisk h hA hin hs

/-- The run lemma: from any data directory, any calls. -/
theorem run_kept {f : Files} {cs : List Call} (hA : Agree E)
    (hin : Machine.Along (call x maxBytes) (fun st c => c.In x E st) (Store.new f) cs)
    (hs : Machine.run (call x maxBytes) (Store.new f) cs = some st) : Kept E st.index := by
  refine Machine.run_invariant (I := fun st : Store => Kept E st.index) ?_ cs _ _ hs hin (Index.kept_new E)
  intro s c s' hstep hc h
  exact kept_call h hA hc hstep

end

end Store
end Memlay

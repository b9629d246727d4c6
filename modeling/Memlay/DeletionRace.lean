import Memlay.Checkpoint

/-!
# A deletion request and a checkpoint at the same time

`apply_deletion` taken apart into its steps (record the tombstone, then remove
the event), interleaved with the steps of one checkpoint.

    solo_eq_applyDeletion     alone, the steps are `applyDeletion`
    gone_of_recordStays       after both, no deleted event comes back from the files, if a
                              target that is recorded when the checkpoint collects and
                              that its snapshot gives back has its record in the new segment
    lateRemoval_returns       without that, it comes back
-/

namespace Memlay

open Index (Inv Agree)
open Store (Rec segmentRecs snapshotRecs Whole)

/-- Where the checkpoint stands, with the events it has collected. -/
inductive Stage where
  | before
  | rotated
  | collected (es : List Event)
  | written (es : List Event)
  | done (es : List Event)
deriving DecidableEq

structure Race where
  store : Store
  /-- ids the first loop has not visited -/
  ids : List Bytes32
  /-- coordinates the second loop has not visited -/
  coordinates : List Coordinate
  /-- targets of the current coordinate -/
  targets : List Bytes32
  /-- the target that is recorded and not yet removed -/
  logged : Option Bytes32
  out : DeletionOutcome
  stage : Stage

inductive RaceStep where
  | delete
  | rotate
  | collect (es : List Event)
  | renameSnapshot
  | removeOld
deriving DecidableEq

namespace Race

/-- The next step of `apply_deletion`; `none` when it has returned. -/
def deleteStep (author : Bytes32) (until_ : Nat) (r : Race) : Option Race :=
  match r.logged with
  | some id =>
    let (removed, s) := r.store.index.deleteById id
    let out := if removed.isSome then { r.out with deletedIds := r.out.deletedIds ++ [id] } else r.out
    some { r with store := { r.store with index := s }, logged := none, out := out }
  | none =>
    match r.targets with
    | id :: rest =>
      some { r with store := r.store.recordDeletion id, logged := some id, targets := rest }
    | [] =>
      match r.ids with
      | id :: rest =>
        match r.store.index.get id with
        | some existing =>
          if existing.pubkey = author then
            some { r with store := r.store.recordDeletion id, logged := some id, ids := rest }
          else
            some { r with ids := rest, out := { r.out with skippedForeign := r.out.skippedForeign + 1 } }
        | none => some { r with ids := rest }
      | [] =>
        match r.coordinates with
        | coord :: rest =>
          if coord.pubkey ≠ author then
            some { r with
              coordinates := rest
              out := { r.out with skippedForeign := r.out.skippedForeign + 1 } }
          else
            match r.store.index.coordinateTargets coord until_ with
            | [] =>
              some { r with
                coordinates := rest
                out := { r.out with unknownCoordinates := r.out.unknownCoordinates + 1 } }
            | targets => some { r with coordinates := rest, targets := targets }
        | [] => none

def step (author : Bytes32) (until_ : Nat) (r : Race) : RaceStep → Option Race
  | .delete => r.deleteStep author until_
  | .rotate =>
    match r.stage with
    | .before => r.store.renameWal.map fun st => { r with store := st.openWal, stage := .rotated }
    | _ => none
  | .collect es =>
    match r.stage with
    | .rotated => if es.Perm r.store.index.iterAll then some { r with stage := .collected es } else none
    | _ => none
  | .renameSnapshot =>
    match r.stage with
    | .collected es => some { r with store := r.store.putSnapshot es, stage := .written es }
    | _ => none
  | .removeOld =>
    match r.stage with
    | .written es => some { r with store := r.store.removeOld, stage := .done es }
    | _ => none

/-- `apply_deletion` is called, the checkpoint has not begun. -/
def start (st : Store) (ids : List Bytes32) (coordinates : List Coordinate) : Race :=
  ⟨st, ids, coordinates, [], none, .default, .before⟩

/-- Both have returned. -/
structure Done (r : Race) : Prop where
  logged : r.logged = none
  ids : r.ids = []
  coordinates : r.coordinates = []
  targets : r.targets = []
  stage : ∃ es, r.stage = .done es

/-- After a crash, no deleted event is live again. -/
def Gone (x : Ext) (maxBytes : Usize) (r : Race) : Prop :=
  ∀ applied s, Store.replayFiles x maxBytes .new r.store.files.openWal = some (applied, s) →
    ∀ id ∈ r.out.deletedIds, s.byId.lookup id = none

/-- When the live events are collected, a target that is recorded already and that
the snapshot of these events gives back has its record in the segment that stays. -/
def RecordStays (x : Ext) (r : Race) : RaceStep → Prop
  | .collect es => ∀ e ∈ snapshotEvents x (writeSnapshot es),
      e.id ∈ r.out.deletedIds ∨ r.logged = some e.id → Rec.bury e.id ∈ segmentRecs x r.store.files.wal
  | _ => True

/-! ## The steps alone -/

section
variable {author : Bytes32} {until_ : Nat}

/-- Steps of `apply_deletion` only. -/
def Solo (author : Bytes32) (until_ : Nat) (r r' : Race) : Prop :=
  ∃ n, Machine.run (step author until_) r (List.replicate n .delete) = some r'

theorem Solo.refl (r : Race) : Solo author until_ r r := ⟨0, rfl⟩

theorem Solo.one {r r' : Race} (h : r.deleteStep author until_ = some r') : Solo author until_ r r' := by
  refine ⟨1, (Machine.run_cons_eq_some (step author until_)).2 ⟨r', h, ?_⟩⟩
  exact Machine.run_nil (step author until_) r'

theorem Solo.trans {r r' r'' : Race} (h : Solo author until_ r r') (h' : Solo author until_ r' r'') :
    Solo author until_ r r'' := by
  obtain ⟨m, hm⟩ := h
  obtain ⟨n, hn⟩ := h'
  refine ⟨m + n, ?_⟩
  rw [List.replicate_add, Machine.run_append, hm]
  exact hn

/-- The state with this outcome and this store. -/
def after (r : Race) (p : DeletionOutcome × Store) : Race := { r with out := p.1, store := p.2 }

/-- Recording and removing a target is `deleteTarget`. -/
theorem solo_drop (author : Bytes32) (until_ : Nat) (r : Race) (id : Bytes32) :
    Solo author until_ { r with store := r.store.recordDeletion id, logged := some id }
      ({ r with logged := none }.after (Store.deleteTarget (r.out, r.store) id)) :=
  Solo.one rfl

theorem solo_targets (author : Bytes32) (until_ : Nat) (targets : List Bytes32) (r : Race) (hl : r.logged = none) :
    Solo author until_ { r with targets := targets }
      ({ r with targets := [] }.after (targets.foldl Store.deleteTarget (r.out, r.store))) := by
  induction targets generalizing r with
  | nil => exact Solo.refl _
  | cons id rest ih =>
    have hrecord : Solo author until_ { r with targets := id :: rest }
        { r with targets := rest, store := r.store.recordDeletion id, logged := some id } := by
      refine Solo.one ?_
      simp only [deleteStep, hl]
    have hdrop := solo_drop author until_ { r with targets := rest } id
    rw [show ({ r with targets := rest, logged := none } : Race) = { r with targets := rest } by
      rw [← hl]] at hdrop
    refine hrecord.trans (hdrop.trans ?_)
    exact ih (r.after (Store.deleteTarget (r.out, r.store) id)) hl

theorem solo_ids (author : Bytes32) (until_ : Nat) (ids : List Bytes32) (r : Race) (hl : r.logged = none)
    (ht : r.targets = []) :
    Solo author until_ { r with ids := ids }
      ({ r with ids := [] }.after (ids.foldl (Store.deleteId author) (r.out, r.store))) := by
  induction ids generalizing r with
  | nil => exact Solo.refl _
  | cons id rest ih =>
    have hone : Solo author until_ { r with ids := id :: rest }
        ({ r with ids := rest }.after (Store.deleteId author (r.out, r.store) id)) := by
      cases hget : r.store.index.get id with
      | none =>
        have hskip : Store.deleteId author (r.out, r.store) id = (r.out, r.store) := by
          simp only [Store.deleteId, hget]
        refine Solo.one ?_
        rw [hskip]
        simp only [deleteStep, hl, ht, hget, after]
      | some existing =>
        by_cases hown : existing.pubkey = author
        · have hdel : Store.deleteId author (r.out, r.store) id =
              Store.deleteTarget (r.out, r.store) id := by
            simp only [Store.deleteId, hget, if_pos hown]
          have hrecord : Solo author until_ { r with ids := id :: rest }
              { r with ids := rest, store := r.store.recordDeletion id, logged := some id } := by
            refine Solo.one ?_
            simp only [deleteStep, hl, ht, hget, if_pos hown]
          rw [hdel]
          have hdrop := solo_drop author until_ { r with ids := rest } id
          rw [show ({ r with ids := rest, logged := none } : Race) = { r with ids := rest } by
            rw [← hl]] at hdrop
          exact hrecord.trans hdrop
        · have hskip : Store.deleteId author (r.out, r.store) id =
              ({ r.out with skippedForeign := r.out.skippedForeign + 1 }, r.store) := by
            simp only [Store.deleteId, hget, if_neg hown]
          refine Solo.one ?_
          rw [hskip]
          simp only [deleteStep, hl, ht, hget, if_neg hown, after]
    exact hone.trans (ih (r.after (Store.deleteId author (r.out, r.store) id)) hl ht)

theorem solo_coordinates (author : Bytes32) (until_ : Nat) (coordinates : List Coordinate) (r : Race)
    (hl : r.logged = none)
    (ht : r.targets = []) (hi : r.ids = []) :
    Solo author until_ { r with coordinates := coordinates }
      ({ r with coordinates := [] }.after
        (coordinates.foldl (Store.deleteCoordinate author until_) (r.out, r.store))) := by
  induction coordinates generalizing r with
  | nil => exact Solo.refl _
  | cons c rest ih =>
    have hone : Solo author until_ { r with coordinates := c :: rest }
        ({ r with coordinates := rest }.after
          (Store.deleteCoordinate author until_ (r.out, r.store) c)) := by
      by_cases hown : c.pubkey ≠ author
      · have hskip : Store.deleteCoordinate author until_ (r.out, r.store) c =
            ({ r.out with skippedForeign := r.out.skippedForeign + 1 }, r.store) := by
          simp only [Store.deleteCoordinate, if_pos hown]
        refine Solo.one ?_
        rw [hskip]
        simp only [deleteStep, hl, ht, hi, if_pos hown, after]
      · cases htar : r.store.index.coordinateTargets c until_ with
        | nil =>
          have hskip : Store.deleteCoordinate author until_ (r.out, r.store) c =
              ({ r.out with unknownCoordinates := r.out.unknownCoordinates + 1 }, r.store) := by
            simp only [Store.deleteCoordinate, if_neg hown, htar]
          refine Solo.one ?_
          rw [hskip]
          simp only [deleteStep, hl, ht, hi, if_neg hown, htar, after]
        | cons id more =>
          have hdel : Store.deleteCoordinate author until_ (r.out, r.store) c =
              (id :: more).foldl Store.deleteTarget (r.out, r.store) := by
            simp only [Store.deleteCoordinate, if_neg hown, htar]
          have hfind : Solo author until_ { r with coordinates := c :: rest }
              { r with coordinates := rest, targets := id :: more } := by
            refine Solo.one ?_
            simp only [deleteStep, hl, ht, hi, if_neg hown, htar]
          have htargets := solo_targets author until_ (id :: more)
            { r with coordinates := rest } hl
          rw [show ({ r with coordinates := rest, targets := [] } : Race) = { r with coordinates := rest } by
            rw [← ht]] at htargets
          rw [hdel]
          exact hfind.trans htargets
    exact hone.trans (ih (r.after (Store.deleteCoordinate author until_ (r.out, r.store) c)) hl ht hi)

/-- Without a checkpoint between them, the steps are `apply_deletion`. -/
theorem solo_eq_applyDeletion (st : Store) (ids : List Bytes32) (coordinates : List Coordinate) :
    Solo author until_ (start st ids coordinates)
      ((start st [] []).after (st.applyDeletion ids coordinates author until_)) := by
  have h1 := solo_ids author until_ ids (start st [] coordinates) rfl rfl
  have h2 := solo_coordinates author until_ coordinates
    ((start st [] []).after (ids.foldl (Store.deleteId author) (.default, st))) rfl rfl rfl
  exact h1.trans h2

/-! ## One step of the deletion -/

/-- Everything a step of `apply_deletion` does to the store. -/
inductive Moves (r r' : Race) : Prop
  | drop (id : Bytes32) (hl : r.logged = some id) (hl' : r'.logged = none)
      (hst : r'.store = { r.store with index := (r.store.index.deleteById id).2 })
      (hout : r'.out.deletedIds = r.out.deletedIds ∨ r'.out.deletedIds = r.out.deletedIds ++ [id])
  | record (id : Bytes32) (hl : r.logged = none) (hl' : r'.logged = some id)
      (hst : r'.store = r.store.recordDeletion id) (hout : r'.out.deletedIds = r.out.deletedIds)
  | skip (hl : r.logged = none) (hl' : r'.logged = none) (hst : r'.store = r.store)
      (hout : r'.out.deletedIds = r.out.deletedIds)

theorem deleteStep_cases {r r' : Race} (hstep : r.deleteStep author until_ = some r') :
    Moves r r' ∧ r'.stage = r.stage := by
  unfold deleteStep at hstep
  split at hstep
  · rename_i id hl
    cases hstep
    refine ⟨.drop id hl rfl rfl ?_, rfl⟩
    by_cases hrem : (r.store.index.deleteById id).1.isSome = true
    · exact Or.inr (congrArg DeletionOutcome.deletedIds (if_pos hrem))
    · exact Or.inl (congrArg DeletionOutcome.deletedIds (if_neg hrem))
  · rename_i hl
    split at hstep
    · cases hstep
      exact ⟨.record _ hl rfl rfl rfl, rfl⟩
    · split at hstep
      · split at hstep
        · split at hstep
          · cases hstep
            exact ⟨.record _ hl rfl rfl rfl, rfl⟩
          · cases hstep
            exact ⟨.skip hl hl rfl rfl, rfl⟩
        · cases hstep
          exact ⟨.skip hl hl rfl rfl, rfl⟩
      · split at hstep
        · split at hstep
          · cases hstep
            exact ⟨.skip hl hl rfl rfl, rfl⟩
          · split at hstep
            · cases hstep
              exact ⟨.skip hl hl rfl rfl, rfl⟩
            · cases hstep
              exact ⟨.skip hl hl rfl rfl, rfl⟩
        · cases hstep

/-! ## What the files hold -/

variable {x : Ext}

/-- The segment that stays has tombstone records only. -/
structure OnlyTombstones (x : Ext) (st : Store) : Prop where
  handle : st.handle = .wal
  whole : Whole st.files.wal
  recs : ∀ a ∈ segmentRecs x st.files.wal, ∃ id, a = .bury id

/-- Every recorded target that a snapshot of `es` gives back has its record in the
segment that stays. -/
def Covered (x : Ext) (es : List Event) (r : Race) : Prop :=
  ∀ e ∈ snapshotEvents x (writeSnapshot es),
    e.id ∈ r.out.deletedIds ∨ r.logged = some e.id → Rec.bury e.id ∈ segmentRecs x r.store.files.wal

/-- What holds at each stage of the checkpoint. -/
def AtStage (x : Ext) (r : Race) : Prop :=
  match r.stage with
  | .before => True
  | .rotated => OnlyTombstones x r.store
  | .collected es => OnlyTombstones x r.store ∧ Covered x es r
  | .written es =>
    OnlyTombstones x r.store ∧ Covered x es r ∧ r.store.files.events = some (writeSnapshot es)
  | .done es =>
    OnlyTombstones x r.store ∧ Covered x es r ∧ r.store.files.events = some (writeSnapshot es) ∧
      r.store.files.walOld = none

/-- Recording a target appends its tombstone to the segment that stays. -/
theorem OnlyTombstones.record {st : Store} (h : OnlyTombstones x st) (id : Bytes32) :
    OnlyTombstones x (st.recordDeletion id) ∧
      segmentRecs x (st.recordDeletion id).files.wal = segmentRecs x st.files.wal ++ [.bury id] := by
  have hfiles : (st.recordDeletion id).files =
      { st.files with wal := some (st.files.wal.getD [] ++ Wal.encodeOp (.tombstone id)) } := by
    simp only [Store.recordDeletion, Store.append, Files.append, h.handle]
  have hfits : Wal.Fits (.tombstone id) := trivial
  obtain ⟨hwhole, hrecs⟩ := h.whole.append (x := x) hfits
  have happ : segmentRecs x (st.recordDeletion id).files.wal = segmentRecs x st.files.wal ++ [.bury id] := by
    rw [hfiles]
    exact hrecs
  refine ⟨⟨h.handle, by rw [hfiles]; exact hwhole, fun a ha => ?_⟩, happ⟩
  rw [happ] at ha
  rcases List.mem_append.1 ha with ha | ha
  · exact h.recs a ha
  · exact ⟨id, List.mem_singleton.1 ha⟩

theorem Moves.files {r r' : Race} (h : Moves r r') :
    r'.store.files.events = r.store.files.events ∧
      (r.store.handle = .wal → r'.store.files.walOld = r.store.files.walOld) := by
  cases h with
  | drop id hl hl' hst hout =>
    rw [hst]
    exact ⟨rfl, fun _ => rfl⟩
  | record id hl hl' hst hout =>
    rw [hst]
    cases hh : r.store.handle with
    | wal => simp [Store.recordDeletion, Store.append, Files.append, hh]
    | old => simp [Store.recordDeletion, Store.append, Files.append, hh]
  | skip hl hl' hst hout =>
    rw [hst]
    exact ⟨rfl, fun _ => rfl⟩

theorem Moves.onlyTombstones {r r' : Race} (h : Moves r r') (ht : OnlyTombstones x r.store) :
    OnlyTombstones x r'.store := by
  cases h with
  | drop id hl hl' hst hout =>
    rw [hst]
    exact ⟨ht.handle, ht.whole, ht.recs⟩
  | record id hl hl' hst hout =>
    rw [hst]
    exact (ht.record id).1
  | skip hl hl' hst hout => rwa [hst]

/-- A target is recorded before it is removed, so what is covered stays covered. -/
theorem Moves.covered {r r' : Race} {es : List Event} (h : Moves r r') (ht : OnlyTombstones x r.store)
    (hc : Covered x es r) : Covered x es r' := by
  intro e he hd
  cases h with
  | drop id hl hl' hst hout =>
    have hwal : r'.store.files.wal = r.store.files.wal := by rw [hst]
    rw [hwal]
    refine hc e he ?_
    rcases hd with hd | hd
    · rcases hout with hout | hout
      · exact Or.inl (by rwa [hout] at hd)
      · rw [hout] at hd
        rcases List.mem_append.1 hd with hd | hd
        · exact Or.inl hd
        · exact Or.inr (by rw [hl, List.mem_singleton.1 hd])
    · rw [hl'] at hd
      cases hd
  | record id hl hl' hst hout =>
    rw [hst, (ht.record id).2]
    refine List.mem_append.2 ?_
    rcases hd with hd | hd
    · exact Or.inl (hc e he (Or.inl (by rwa [hout] at hd)))
    · rw [hl'] at hd
      exact Or.inr (by rw [Option.some.inj hd]; exact List.mem_singleton_self _)
  | skip hl hl' hst hout =>
    rw [hst]
    refine hc e he ?_
    rw [hl', hout] at hd
    rwa [hl]

theorem AtStage.delete {r r' : Race} (h : AtStage x r) (hstep : r.deleteStep author until_ = some r') :
    AtStage x r' := by
  obtain ⟨hm, hstage⟩ := deleteStep_cases hstep
  have hfiles := hm.files
  unfold AtStage at h ⊢
  rw [hstage]
  cases hs : r.stage with
  | before => trivial
  | rotated =>
    rw [hs] at h
    exact hm.onlyTombstones h
  | collected es =>
    rw [hs] at h
    exact ⟨hm.onlyTombstones h.1, hm.covered h.1 h.2⟩
  | written es =>
    rw [hs] at h
    obtain ⟨ht, hc, hev⟩ := h
    exact ⟨hm.onlyTombstones ht, hm.covered ht hc, hfiles.1.trans hev⟩
  | done es =>
    rw [hs] at h
    obtain ⟨ht, hc, hev, hold⟩ := h
    exact ⟨hm.onlyTombstones ht, hm.covered ht hc, hfiles.1.trans hev, (hfiles.2 ht.handle).trans hold⟩

/-- The step lemma. -/
theorem AtStage.step {r r' : Race} {a : RaceStep} (h : AtStage x r) (hc : RecordStays x r a)
    (hstep : r.step author until_ a = some r') : AtStage x r' := by
  cases a with
  | delete => exact h.delete hstep
  | rotate =>
    unfold Race.step at hstep
    simp only at hstep
    split at hstep
    · obtain ⟨st, hst, rfl⟩ := Option.map_eq_some_iff.1 hstep
      have hnone : st.files.wal = none := by
        unfold Store.renameWal at hst
        split at hst
        · cases hst
        · cases hst
          rfl
      have hwal : st.openWal.files.wal = some [] := by
        show some (st.files.wal.getD []) = some []
        rw [hnone]
        rfl
      show OnlyTombstones x st.openWal
      refine ⟨rfl, by rw [hwal]; exact Store.whole_nil, fun a ha => ?_⟩
      rw [hwal] at ha
      cases ha
    · cases hstep
  | collect es =>
    unfold Race.step at hstep
    simp only at hstep
    split at hstep
    · rename_i hs
      split at hstep
      · cases hstep
        unfold AtStage at h
        rw [hs] at h
        exact ⟨h, hc⟩
      · cases hstep
    · cases hstep
  | renameSnapshot =>
    unfold Race.step at hstep
    simp only at hstep
    split at hstep
    · rename_i es hs
      cases hstep
      unfold AtStage at h
      rw [hs] at h
      obtain ⟨ht, hcov⟩ := h
      exact ⟨⟨ht.handle, ht.whole, ht.recs⟩, hcov, rfl⟩
    · cases hstep
  | removeOld =>
    unfold Race.step at hstep
    simp only at hstep
    split at hstep
    · rename_i es hs
      cases hstep
      unfold AtStage at h
      rw [hs] at h
      obtain ⟨ht, hcov, hev⟩ := h
      exact ⟨⟨ht.handle, ht.whole, ht.recs⟩, hcov, hev, rfl⟩
    · cases hstep

/-! ## What a load brings back -/

/-- Tombstone records make nothing live, and what they name is not live after them. -/
theorem lookup_of_foldlM_bury {maxBytes : Usize} {recs : List Rec} (hrecs : ∀ a ∈ recs, ∃ id, a = .bury id)
    {s s' : Index} {id : Bytes32} {y : Event} (hs : recs.foldlM (Store.replayOp maxBytes) s = some s')
    (h : s'.byId.lookup id = some y) : s.byId.lookup id = some y ∧ Rec.bury id ∉ recs := by
  induction recs generalizing s with
  | nil =>
    cases hs
    exact ⟨h, List.not_mem_nil⟩
  | cons a recs ih =>
    obtain ⟨i, rfl⟩ := hrecs a (by simp)
    rw [List.foldlM_cons] at hs
    obtain ⟨s₁, h₁, hs⟩ := Option.bind_eq_some_iff.1 hs
    obtain ⟨hl, hno⟩ := ih (fun b hb => hrecs b (List.mem_cons_of_mem _ hb)) hs
    have hs₁ : s₁ = ((s.tombstone i).remove i).2 := (Option.some.inj h₁).symm
    rw [hs₁, Index.remove_lookup] at hl
    by_cases hid : id = i
    · rw [if_pos hid] at hl
      cases hl
    · rw [if_neg hid] at hl
      refine ⟨hl, fun hm => ?_⟩
      rcases List.mem_cons.1 hm with hm | hm
      · exact hid (Rec.bury.inj hm)
      · exact hno hm

/-- When both have returned, what is covered is gone. -/
theorem AtStage.gone {r : Race} (h : AtStage x r) (hd : r.Done) (maxBytes : Usize) : r.Gone x maxBytes := by
  obtain ⟨es, hs⟩ := hd.stage
  unfold AtStage at h
  rw [hs] at h
  obtain ⟨ht, hc, hev, hold⟩ := h
  intro applied s hload id hid
  unfold Store.replayFiles at hload
  simp only [bind, Option.bind_eq_some_iff] at hload
  obtain ⟨s₁, h₁, s₂, h₂, hret⟩ := hload
  have hsnap : snapshotRecs x r.store.files.openWal.events = snapshotEvents x (writeSnapshot es) := by
    show snapshotRecs x r.store.files.events = _
    rw [hev]
    exact List.flatten_singleton
  have hsegs : segmentRecs x r.store.files.openWal.walOld ++ segmentRecs x r.store.files.openWal.wal =
      segmentRecs x r.store.files.wal := by
    show segmentRecs x r.store.files.walOld ++ segmentRecs x (some (r.store.files.wal.getD [])) = _
    rw [hold, Store.segmentRecs_none, Store.segmentRecs_getD, List.nil_append]
  rw [hsnap] at h₁
  rw [hsegs] at h₂
  cases hret
  cases hl : s.byId.lookup id with
  | none => rfl
  | some y =>
    obtain ⟨hl₁, hno⟩ := lookup_of_foldlM_bury ht.recs h₂ hl
    rcases Store.lookup_of_foldlM_ingest h₁ hl₁ with ⟨he, rfl⟩ | hnew
    · exact absurd (hc y he (Or.inl hid)) hno
    · cases hnew

/-- In every run in which the record stays, no deleted event comes back: for every
store, request and memory limit.  Without a limit the load does return. -/
theorem gone_of_recordStays {st : Store} {ids : List Bytes32} {coordinates : List Coordinate}
    {steps : List RaceStep} {r : Race}
    (hrun : Machine.run (step author until_) (start st ids coordinates) steps = some r) (hd : r.Done)
    (hstays : Machine.Along (step author until_) (RecordStays x) (start st ids coordinates) steps) :
    (∃ applied s, Store.replayFiles x 0 .new r.store.files.openWal = some (applied, s)) ∧
      ∀ maxBytes, r.Gone x maxBytes := by
  have hinit : AtStage x (start st ids coordinates) := trivial
  have h := Machine.run_invariant
    (fun s a s' hs hc (hJ : AtStage x s) => hJ.step hc hs) steps _ r hrun hstays hinit
  exact ⟨⟨_, _, Store.replayFiles_zero x r.store.files.openWal⟩, h.gone hd⟩

end

/-! ## One note and its deletion -/

/-- The store after one insert. -/
def noteStore : Store := ⟨(Index.new.insert (note 0)).2, ⟨none, none, noteSegment⟩, .wal⟩

/-- The index after the note's deletion. -/
def deletedIndex : Index := ((Index.new.insert (note 0)).2.deleteById (note 0).id).2

/-- The log after the note's deletion. -/
def tombstoneSegment : Option Bytes := some ((some []).getD [] ++ Wal.encodeOp (.tombstone (note 0).id))

theorem segmentRecs_tombstoneSegment : segmentRecs noteExt tombstoneSegment = [.bury (note 0).id] := by
  have hfit : Wal.Fits (.tombstone (note 0).id) := trivial
  unfold tombstoneSegment
  rw [(Store.whole_nil.append (x := noteExt) hfit).2]
  rfl

theorem collect_note {r : Race} (hs : r.stage = .rotated) (hi : r.store.index = (Index.new.insert (note 0)).2) :
    r.step (note 0).pubkey 0 (.collect [note 0]) = some { r with stage := .collected [note 0] } := by
  have hlive : (Index.new.insert (note 0)).2.iterAll = [note 0] := rfl
  simp only [step, hs, hi, hlive, List.Perm.refl, if_true]

/-- The target is recorded behind the rotation. -/
def lateRecord : List RaceStep := [.rotate, .delete, .collect [note 0], .delete, .renameSnapshot, .removeOld]

/-- The target is recorded before the rotation and removed behind the collection. -/
def lateRemoval : List RaceStep := [.delete, .rotate, .collect [note 0], .delete, .renameSnapshot, .removeOld]

/-- The state after the third step. -/
def collectedNote (old wal : Option Bytes) : Race :=
  ⟨⟨(Index.new.insert (note 0)).2, ⟨none, old, wal⟩, .wal⟩, [], [], [], some (note 0).id, .default,
    .collected [note 0]⟩

/-- The state after both. -/
def deletedNote (wal : Option Bytes) : Race :=
  ⟨⟨deletedIndex, ⟨some (writeSnapshot [note 0]), none, wal⟩, .wal⟩, [], [], [], none,
    ⟨[(note 0).id], 0, 0⟩, .done [note 0]⟩

theorem run_collect (old wal : Option Bytes) :
    Machine.run (step (note 0).pubkey 0) { collectedNote old wal with stage := .rotated }
      [.collect [note 0], .delete, .renameSnapshot, .removeOld] = some (deletedNote wal) := by
  have hcollect : step (note 0).pubkey 0 { collectedNote old wal with stage := .rotated } (.collect [note 0]) =
      some (collectedNote old wal) := collect_note rfl rfl
  refine (Machine.run_cons_eq_some _).2 ⟨_, hcollect, ?_⟩
  rfl

theorem run_lateRecord :
    Machine.run (step (note 0).pubkey 0) (start noteStore [(note 0).id] []) lateRecord =
      some (deletedNote tombstoneSegment) := by
  have hfirst : Machine.run (step (note 0).pubkey 0) (start noteStore [(note 0).id] []) [.rotate, .delete] =
      some { collectedNote noteSegment tombstoneSegment with stage := .rotated } := rfl
  rw [show lateRecord = [.rotate, .delete] ++ [.collect [note 0], .delete, .renameSnapshot, .removeOld] from rfl,
    Machine.run_append, hfirst, Option.bind_some]
  exact run_collect noteSegment tombstoneSegment

theorem run_lateRemoval :
    Machine.run (step (note 0).pubkey 0) (start noteStore [(note 0).id] []) lateRemoval =
      some (deletedNote (some [])) := by
  have hfirst : Machine.run (step (note 0).pubkey 0) (start noteStore [(note 0).id] []) [.delete, .rotate] =
      some { collectedNote (some ((noteSegment.getD []) ++ Wal.encodeOp (.tombstone (note 0).id))) (some [])
        with stage := .rotated } := rfl
  rw [show lateRemoval = [.delete, .rotate] ++ [.collect [note 0], .delete, .renameSnapshot, .removeOld] from rfl,
    Machine.run_append, hfirst, Option.bind_some]
  exact run_collect (some (noteSegment.getD [] ++ Wal.encodeOp (.tombstone (note 0).id))) (some [])

theorem done_deletedNote (wal : Option Bytes) : (deletedNote wal).Done :=
  ⟨rfl, rfl, rfl, rfl, [note 0], rfl⟩

theorem lateRecord_gone :
    ∃ r, Machine.run (step (note 0).pubkey 0) (start noteStore [(note 0).id] []) lateRecord = some r ∧
      r.Done ∧ r.out.deletedIds = [(note 0).id] ∧ r.Gone noteExt 0 := by
  refine ⟨_, run_lateRecord, done_deletedNote _, rfl,
    (gone_of_recordStays run_lateRecord (done_deletedNote _) ?_).2 0⟩
  refine ⟨trivial, fun _ h₁ => ⟨trivial, fun _ h₂ => ⟨fun e he _ => ?_, fun _ _ => ?_⟩⟩⟩
  · cases h₁
    cases h₂
    have hsnap : snapshotEvents noteExt (writeSnapshot [note 0]) = [note 0] :=
      snapshotEvents_writeSnapshot fun e he => by
        rw [List.mem_singleton.1 he]
        exact note_readable.restorable
    rw [hsnap] at he
    rw [List.mem_singleton.1 he]
    show Rec.bury (note 0).id ∈ segmentRecs noteExt tombstoneSegment
    rw [segmentRecs_tombstoneSegment]
    exact List.mem_singleton_self _
  · exact ⟨trivial, fun _ _ => ⟨trivial, fun _ _ => ⟨trivial, fun _ _ => trivial⟩⟩⟩

/-- The snapshot has the note, and the tombstone's record is in the removed segment. -/
theorem lateRemoval_returns :
    ∃ r, Machine.run (step (note 0).pubkey 0) (start noteStore [(note 0).id] []) lateRemoval = some r ∧
      r.Done ∧ r.out.deletedIds = [(note 0).id] ∧ ¬ r.Gone noteExt 0 := by
  refine ⟨_, run_lateRemoval, done_deletedNote _, rfl, fun hgone => ?_⟩
  have hsnap : snapshotRecs noteExt (some (writeSnapshot [note 0])) = [note 0] := by
    refine Store.snapshotRecs_writeSnapshot fun e he => ?_
    rw [List.mem_singleton.1 he]
    exact note_readable
  have hload := Store.replayFiles_zero noteExt (deletedNote (some [])).store.files.openWal
  have hnone := hgone _ _ hload (note 0).id (List.mem_singleton_self _)
  have hrecs : Store.diskRecs noteExt (deletedNote (some [])).store.files.openWal = [.put (note 0)] := by
    unfold Store.diskRecs
    show (snapshotRecs noteExt (some (writeSnapshot [note 0]))).map Rec.put ++ _ = _
    rw [hsnap]
    rfl
  rw [Store.recover, hrecs] at hnone
  have hlive := (lookup_note (note 0).id (note 0)).2 ⟨rfl, rfl⟩
  rw [show [Rec.put (note 0)].foldl Store.redo Index.new = (Index.new.insert (note 0)).2 from rfl, hlive] at hnone
  cases hnone

end Race
end Memlay

import Memlay.Recovery
import Memlay.Lib.Machine

/-!
# Runs of the store: operations, checkpoint attempts, restarts

The store as a machine.  An operation (an insert, a deletion request) is one
step; a checkpoint attempt is one step for each file operation, so that
operations of other threads fall between them, an attempt can end with an error
after any of them (`giveUp`), and the process can die after any of them
(`restart`: the next process loads the files, with no memory limit).

Every operation is an action of the board that leaves its records in the file
behind the write handle (`Logs`); that is all the later modules use.
-/

namespace Memlay

open Index (Shows Inv Agree Fields rules)
open Registers (Board History)
open Store (Rec diskRecs segmentRecs snapshotRecs Whole recover)

/-- Where a checkpoint attempt stands. -/
inductive Phase where
  | idle
  /-- `wal.log` is renamed, the new one is not open yet; the log is locked -/
  | renamed
  | rotated
  /-- the live events are collected, in `iter_all`'s order -/
  | collected (es : List Event)
  /-- the snapshot is in place -/
  | written
deriving DecidableEq

structure Sys where
  store : Store
  phase : Phase
  /-- no step reads it: the snapshot was collected after the rotation that left
  `wal.log.old` -/
  superseded : Bool

inductive Action where
  | insert (e : Event)
  | deletion (ids : List Bytes32) (coordinates : List Coordinate) (author : Bytes32) (until_ : Nat)
  | rename
  | reopen
  | collect (es : List Event)
  | renameSnapshot
  /-- `false`: the file cannot be removed, which is logged only -/
  | removeOld (ok : Bool)
  | giveUp
  | restart (es : List Event)
deriving DecidableEq

namespace Sys

/-- An empty data directory. -/
def init : Sys := ⟨Store.new .empty, .idle, true⟩

def step (x : Ext) (s : Sys) : Action → Option Sys
  | .insert e =>
    if s.phase = .renamed then none else some { s with store := (s.store.insert e).2 }
  | .deletion ids coordinates author until_ =>
    if s.phase = .renamed then none
    else some { s with store := (s.store.applyDeletion ids coordinates author until_).2 }
  | .rename =>
    if s.phase = .idle then s.store.renameWal.map fun st => ⟨st, .renamed, false⟩ else none
  | .reopen => if s.phase = .renamed then some { s with store := s.store.openWal, phase := .rotated } else none
  | .collect es =>
    if s.phase = .rotated ∧ es.Perm s.store.index.iterAll then some { s with phase := .collected es }
    else none
  | .renameSnapshot =>
    match s.phase with
    | .collected es => some ⟨s.store.putSnapshot es, .written, true⟩
    | _ => none
  | .removeOld ok =>
    if s.phase = .written then
      some { s with store := if ok then s.store.removeOld else s.store, phase := .idle }
    else none
  | .giveUp => if s.phase = .idle ∨ s.phase = .written then none else some { s with phase := .idle }
  | .restart es =>
    let st := Store.new s.store.files
    if es.Perm (recover x st.files).iterAll then
      (st.loadFromDisk x 0 es).map fun st => ⟨st, .idle, true⟩
    else none

/-- The events a run inserts. -/
def Inserted (as : List Action) (e : Event) : Prop := Action.insert e ∈ as

/-! ## What each action can do -/

section
variable {x : Ext} {s s' : Sys}

theorem step_insert {e : Event} (h : step x s (.insert e) = some s') :
    s.phase ≠ .renamed ∧ s' = { s with store := (s.store.insert e).2 } := by
  simp only [step] at h
  split at h
  · cases h
  · rename_i hp
    exact ⟨hp, (Option.some.inj h).symm⟩

theorem step_deletion {ids : List Bytes32} {coordinates : List Coordinate} {author : Bytes32} {until_ : Nat}
    (h : step x s (.deletion ids coordinates author until_) = some s') :
    s.phase ≠ .renamed ∧ s' = { s with store := (s.store.applyDeletion ids coordinates author until_).2 } := by
  simp only [step] at h
  split at h
  · cases h
  · rename_i hp
    exact ⟨hp, (Option.some.inj h).symm⟩

/-- The rotation takes the segment over as the old one. -/
theorem step_rename (h : step x s .rename = some s') :
    s.phase = .idle ∧ ∃ segment, s.store.files.wal = some segment ∧
      s' = ⟨⟨s.store.index, { s.store.files with walOld := some segment, wal := none }, .old⟩, .renamed,
          false⟩ := by
  simp only [step] at h
  split at h
  · rename_i hp
    obtain ⟨st, hst, rfl⟩ := Option.map_eq_some_iff.1 h
    unfold Store.renameWal at hst
    split at hst
    · cases hst
    · rename_i segment hwal
      cases hst
      exact ⟨hp, segment, hwal, rfl⟩
  · cases h

theorem step_reopen (h : step x s .reopen = some s') :
    s.phase = .renamed ∧ s' = { s with store := s.store.openWal, phase := .rotated } := by
  simp only [step] at h
  split at h
  · rename_i hp
    exact ⟨hp, (Option.some.inj h).symm⟩
  · cases h

theorem step_collect {es : List Event} (h : step x s (.collect es) = some s') :
    s.phase = .rotated ∧ es.Perm s.store.index.iterAll ∧ s' = { s with phase := .collected es } := by
  simp only [step] at h
  split at h
  · rename_i hc
    exact ⟨hc.1, hc.2, (Option.some.inj h).symm⟩
  · cases h

/-- The snapshot that was collected is put in place. -/
theorem step_renameSnapshot (h : step x s .renameSnapshot = some s') :
    ∃ es, s.phase = .collected es ∧ s' = ⟨s.store.putSnapshot es, .written, true⟩ := by
  simp only [step] at h
  split at h
  · rename_i es hes
    exact ⟨es, hes, (Option.some.inj h).symm⟩
  · cases h

theorem step_removeOld {ok : Bool} (h : step x s (.removeOld ok) = some s') :
    s.phase = .written ∧ s' = { s with store := if ok then s.store.removeOld else s.store, phase := .idle } := by
  simp only [step] at h
  split at h
  · rename_i hw
    exact ⟨hw, (Option.some.inj h).symm⟩
  · cases h

theorem step_giveUp (h : step x s .giveUp = some s') : s' = { s with phase := .idle } := by
  simp only [step] at h
  split at h
  · cases h
  · exact (Option.some.inj h).symm

end

end Sys

/-! ## What an operation does to the files -/

/-- The event is read back from both kinds of files as it was written. -/
structure Event.Readable (x : Ext) (e : Event) : Prop where
  restorable : e.Restorable x
  fits : e.raw.length ≤ maxWalRecordSize

theorem Event.Readable.recorded {x : Ext} {e : Event} (h : e.Readable x) : Store.Recorded x e :=
  ⟨h.restorable.2.2, h.fits⟩

namespace Store

/-- A snapshot of readable events gives them back. -/
theorem snapshotRecs_writeSnapshot {x : Ext} {es : List Event} (h : ∀ e ∈ es, e.Readable x) :
    snapshotRecs x (some (writeSnapshot es)) = es := by
  show [snapshotEvents x (writeSnapshot es)].flatten = es
  rw [List.flatten_singleton]
  exact snapshotEvents_writeSnapshot fun e he => (h e he).restorable

/-- The records are appended to the file behind the handle, and nothing else changes. -/
structure Appends (x : Ext) (st st' : Store) (recs : List Rec) : Prop where
  wholeOld : Whole st'.files.walOld
  wholeWal : Whole st'.files.wal
  handle : st'.handle = st.handle
  events : st'.files.events = st.files.events
  onWal : st.handle = .wal → st'.files.walOld = st.files.walOld ∧
    segmentRecs x st'.files.wal = segmentRecs x st.files.wal ++ recs
  onOld : st.handle = .old → st'.files.wal = st.files.wal ∧
    segmentRecs x st'.files.walOld = segmentRecs x st.files.walOld ++ recs

section
variable {x : Ext} {st st' st'' : Store}

theorem Appends.refl (ho : Whole st.files.walOld) (hw : Whole st.files.wal) (s : Index) :
    Appends x st { st with index := s } [] :=
  ⟨ho, hw, rfl, rfl, fun _ => ⟨rfl, (List.append_nil _).symm⟩, fun _ => ⟨rfl, (List.append_nil _).symm⟩⟩

theorem Appends.concat {recs : List Rec} (h : Appends x st st' recs) (op : WalOp) (hop : Wal.Fits op) :
    Appends x st (st'.append op) (recs ++ (parseOp x op).toList) := by
  cases hh : st.handle with
  | wal =>
    have hh' : st'.handle = .wal := by rw [h.handle, hh]
    have hfiles : (st'.append op).files =
        { st'.files with wal := some (st'.files.wal.getD [] ++ Wal.encodeOp op) } := by
      simp only [append, Files.append, hh']
    obtain ⟨h1, h2⟩ := h.wholeWal.append (x := x) hop
    obtain ⟨h3, h4⟩ := h.onWal hh
    refine ⟨by rw [hfiles]; exact h.wholeOld, by rw [hfiles]; exact h1, h.handle,
      by rw [hfiles]; exact h.events, fun _ => ⟨by rw [hfiles]; exact h3, ?_⟩,
      fun hold => by rw [hh] at hold; cases hold⟩
    rw [hfiles]
    show segmentRecs x (some _) = _
    rw [h2, h4, List.append_assoc]
  | old =>
    have hh' : st'.handle = .old := by rw [h.handle, hh]
    have hfiles : (st'.append op).files =
        { st'.files with walOld := some (st'.files.walOld.getD [] ++ Wal.encodeOp op) } := by
      simp only [append, Files.append, hh']
    obtain ⟨h1, h2⟩ := h.wholeOld.append (x := x) hop
    obtain ⟨h3, h4⟩ := h.onOld hh
    refine ⟨by rw [hfiles]; exact h1, by rw [hfiles]; exact h.wholeWal, h.handle,
      by rw [hfiles]; exact h.events, (fun hwal => by rw [hh] at hwal; cases hwal),
      fun _ => ⟨by rw [hfiles]; exact h3, ?_⟩⟩
    rw [hfiles]
    show segmentRecs x (some _) = _
    rw [h2, h4, List.append_assoc]

/-- Appends after each other. -/
theorem Appends.trans {as bs : List Rec} (h : Appends x st st' as) (h' : Appends x st' st'' bs) :
    Appends x st st'' (as ++ bs) := by
  refine ⟨h'.wholeOld, h'.wholeWal, h'.handle.trans h.handle, h'.events.trans h.events,
    fun hh => ?_, fun hh => ?_⟩
  · obtain ⟨h1, h2⟩ := h.onWal hh
    obtain ⟨h3, h4⟩ := h'.onWal (h.handle.trans hh)
    exact ⟨h3.trans h1, by rw [h4, h2, List.append_assoc]⟩
  · obtain ⟨h1, h2⟩ := h.onOld hh
    obtain ⟨h3, h4⟩ := h'.onOld (h.handle.trans hh)
    exact ⟨h3.trans h1, by rw [h4, h2, List.append_assoc]⟩

/-- What a load applies after the append: the old records and the new ones. -/
theorem Appends.mem_diskRecs {recs : List Rec} (h : Appends x st st' recs) {a : Rec} :
    a ∈ diskRecs x st'.files ↔ a ∈ diskRecs x st.files ∨ a ∈ recs := by
  unfold diskRecs
  rw [h.events]
  cases hh : st.handle with
  | wal =>
    obtain ⟨h1, h2⟩ := h.onWal hh
    rw [h1, h2]
    simp only [List.mem_append]
    tauto
  | old =>
    obtain ⟨h1, h2⟩ := h.onOld hh
    rw [h1, h2]
    simp only [List.mem_append]
    tauto

/-! ## Inserts -/

/-- The records of an insert. -/
def insertRecs (e : Event) : InsertOutcome → List Rec
  | .inserted replaced => .put e :: replaced.toList.map fun old => .remove old.id
  | _ => []

theorem insertRecs_onBoard (e : Event) (o : InsertOutcome) :
    (insertRecs e o).map Rec.onBoard = Index.insertRecs e o := by
  cases o with
  | inserted replaced => cases replaced <;> rfl
  | duplicate => rfl
  | deleted => rfl
  | lostRace => rfl

theorem insert_index (st : Store) (e : Event) :
    (st.insert e).2.index = if e.isEphemeral then st.index else (st.index.insert e).2 := by
  unfold insert
  split
  · rfl
  · cases hi : st.index.insert e with
    | mk o s =>
      cases o with
      | inserted replaced => cases replaced <;> rfl
      | duplicate => rfl
      | deleted => rfl
      | lostRace => rfl

theorem insert_appends {e : Event} (he : e.isEphemeral = false) (hread : e.Readable x)
    (ho : Whole st.files.walOld) (hw : Whole st.files.wal) :
    Appends x st (st.insert e).2 (insertRecs e (st.index.insert e).1) := by
  unfold insert
  rw [if_neg (by rw [he]; exact Bool.false_ne_true)]
  cases hi : st.index.insert e with
  | mk o s =>
    have hone := (Appends.refl (x := x) ho hw s).concat (.insert e.raw) hread.fits
    rw [hread.recorded.parseOp] at hone
    cases o with
    | inserted replaced =>
      cases replaced with
      | none => exact hone
      | some old => exact hone.concat (.delete old.id) trivial
    | duplicate => exact Appends.refl ho hw s
    | deleted => exact Appends.refl ho hw s
    | lostRace => exact Appends.refl ho hw s

/-! ## Deletions -/

theorem deleteTarget_appends (out : DeletionOutcome) (id : Bytes32)
    (ho : Whole st.files.walOld) (hw : Whole st.files.wal) :
    Appends x st (deleteTarget (out, st) id).2 [.bury id] := by
  have h := (Appends.refl (x := x) ho hw st.index).concat (.tombstone id) trivial
  exact ⟨h.wholeOld, h.wholeWal, h.handle, h.events, h.onWal, h.onOld⟩

/-- What every removal of a live target keeps, a deletion request keeps. -/
theorem applyDeletion_invariant {P : Store → Prop}
    (hstep : ∀ out st id y, P st → st.index.byId.lookup id = some y → P (deleteTarget (out, st) id).2)
    (ids : List Bytes32) (coordinates : List Coordinate) (author : Bytes32) (until_ : Nat)
    (h : P st) : P (st.applyDeletion ids coordinates author until_).2 := by
  have hid : ∀ p : DeletionOutcome × Store, P p.2 → ∀ id, P (deleteId author p id).2 := by
    intro p hp id
    unfold deleteId
    split
    · rename_i existing hget
      split
      · exact hstep p.1 p.2 id existing hp hget
      · exact hp
    · exact hp
  have hcoord : ∀ p : DeletionOutcome × Store, P p.2 → ∀ c,
      P (deleteCoordinate author until_ p c).2 := by
    intro p hp c
    unfold deleteCoordinate
    split
    · exact hp
    · split
      · exact hp
      · rename_i targets hne
        have hlen := p.2.index.length_coordinateTargets_le c until_
        cases ht : p.2.index.coordinateTargets c until_ with
        | nil => exact absurd ht hne
        | cons id rest =>
          rw [ht, List.length_cons] at hlen
          have : rest = [] := List.length_eq_zero_iff.1 (by omega)
          subst this
          have hmem : id ∈ p.2.index.coordinateTargets c until_ := by
            rw [ht]
            exact List.mem_singleton_self id
          obtain ⟨y, hy⟩ := Index.live_of_mem_coordinateTargets hmem
          exact hstep p.1 p.2 id y hp hy
  have hfold : ∀ {α : Type} (f : DeletionOutcome × Store → α → DeletionOutcome × Store),
      (∀ p, P p.2 → ∀ a, P (f p a).2) → ∀ (as : List α) p, P p.2 → P (as.foldl f p).2 := by
    intro α f hf as
    induction as with
    | nil => exact fun p hp => hp
    | cons a as ih => exact fun p hp => ih _ (hf p hp a)
  exact hfold _ hcoord coordinates _ (hfold _ hid ids _ h)

/-! ## Operations as actions of the board -/

/-- From one store and board to another, with the actions between them logged. -/
structure Logs (x : Ext) (E : Event → Prop) (fields : Bytes32 → Event) (st : Store)
    (b : Board Bytes32 Index.Slot) (st' : Store) (b' : Board Bytes32 Index.Slot) : Prop where
  recs : ∃ recs, Appends x st st' recs ∧ (∀ a ∈ recs, a.In E) ∧
    History (rules fields) b (recs.map Rec.onBoard) b'
  shows : Shows fields st'.index b'
  inv : Inv E st'.index

variable {E : Event → Prop} {fields : Bytes32 → Event} {b b' b'' : Board Bytes32 Index.Slot}

/-- The records of two operations after each other. -/
theorem Logs.trans (h : Logs x E fields st b st' b') (h' : Logs x E fields st' b' st'' b'') :
    Logs x E fields st b st'' b'' := by
  obtain ⟨as, ha, hEa, hHa⟩ := h.recs
  obtain ⟨bs, hb, hEb, hHb⟩ := h'.recs
  refine ⟨⟨as ++ bs, ha.trans hb, fun c hc => ?_, ?_⟩, h'.shows, h'.inv⟩
  · rcases List.mem_append.1 hc with hc | hc
    · exact hEa c hc
    · exact hEb c hc
  · rw [List.map_append]
    exact hHa.trans hHb

theorem logs_refl (ho : Whole st.files.walOld) (hw : Whole st.files.wal)
    (hs : Shows fields st.index b) (hI : Inv E st.index) : Logs x E fields st b st b :=
  ⟨⟨[], Appends.refl ho hw st.index, fun _ h => absurd h List.not_mem_nil, History.nil b⟩, hs, hI⟩

/-- A stored insert is a put of the board. -/
theorem insertRecs_eq_recsOf (hF : Fields E fields) (hA : Agree E) (hI : Inv E st.index)
    (hs : Shows fields st.index b) {e : Event} (hE : E e) :
    (insertRecs e (st.index.insert e).1).map Rec.onBoard =
      Registers.recsOf (rules fields) b (.put e.id) := by
  rw [insertRecs_onBoard]
  exact (hs.insert hF hI hA hE).2

theorem insertRecs_in {e : Event} (hE : E e) (o : InsertOutcome) : ∀ a ∈ insertRecs e o, a.In E := by
  intro a ha
  cases o with
  | inserted replaced =>
    rcases List.mem_cons.1 ha with rfl | ha
    · exact hE
    · obtain ⟨old, -, rfl⟩ := List.mem_map.1 ha
      trivial
  | duplicate => exact absurd ha List.not_mem_nil
  | deleted => exact absurd ha List.not_mem_nil
  | lostRace => exact absurd ha List.not_mem_nil

/-- An insert logs what it did to the index. -/
theorem logs_insert (hF : Fields E fields) (hA : Agree E) (hI : Inv E st.index)
    (hs : Shows fields st.index b) (ho : Whole st.files.walOld) (hw : Whole st.files.wal)
    {e : Event} (hE : E e) (hread : e.Readable x) : ∃ b', Logs x E fields st b (st.insert e).2 b' := by
  cases he : e.isEphemeral with
  | true =>
    have : (st.insert e).2 = st := by
      unfold insert
      rw [if_pos he]
    rw [this]
    exact ⟨b, logs_refl ho hw hs hI⟩
  | false =>
    have hidx : (st.insert e).2.index = (st.index.insert e).2 := by
      rw [insert_index, he]
      rfl
    refine ⟨Registers.act (rules fields) b (.put e.id), ⟨⟨_, insert_appends he hread ho hw,
      insertRecs_in hE _, ?_⟩, ?_, ?_⟩⟩
    · rw [insertRecs_eq_recsOf hF hA hI hs hE]
      exact (History.nil b).snoc (.put e.id)
    · rw [hidx]
      exact (hs.insert hF hI hA hE).1
    · rw [hidx]
      exact hI.insert hA hE

theorem logs_deleteTarget (hI : Inv E st.index) (hs : Shows fields st.index b)
    (ho : Whole st.files.walOld) (hw : Whole st.files.wal) (out : DeletionOutcome) {id : Bytes32}
    {y : Event} (hy : st.index.byId.lookup id = some y) :
    Logs x E fields st b (deleteTarget (out, st) id).2
      (Registers.act (rules fields) b (.bury id)) := by
  have hheld := hs.holder_of_lookup hy
  refine ⟨⟨[.bury id], deleteTarget_appends out id ho hw, ?_, ?_⟩, ?_, ?_⟩
  · intro a ha
    rw [List.mem_singleton.1 ha]
    trivial
  · have h := (History.nil (r := rules fields) b).snoc (.bury id)
    simp only [Registers.recsOf, if_pos hheld] at h
    exact h
  · simp only [Registers.act, if_pos hheld]
    exact hs.deleteById hI id
  · exact (hI.internalRemove id false).tombstone id

/-- A deletion logs what it took out. -/
theorem logs_applyDeletion (hI : Inv E st.index) (hs : Shows fields st.index b)
    (ho : Whole st.files.walOld) (hw : Whole st.files.wal) (ids : List Bytes32)
    (coordinates : List Coordinate) (author : Bytes32) (until_ : Nat) :
    ∃ b', Logs x E fields st b (st.applyDeletion ids coordinates author until_).2 b' := by
  refine applyDeletion_invariant (P := fun st' => ∃ b', Logs x E fields st b st' b') ?_ ids coordinates
    author until_ ⟨b, logs_refl ho hw hs hI⟩
  rintro out st' id y ⟨b', h⟩ hy
  obtain ⟨recs, ha, -, -⟩ := h.recs
  exact ⟨_, h.trans (logs_deleteTarget h.inv h.shows ha.wholeOld ha.wholeWal out hy)⟩

end
end Store
/-! ## A store with one note -/

/-- The libraries as they act on the signed note. -/
def noteExt : Ext := Ext.known [note 0] []

theorem note_readable : (note 0).Readable noteExt := by
  refine ⟨⟨by decide, oneLine_note, fromJsonUnchecked_known (by simp) (by simp)⟩, ?_⟩
  rw [length_raw_note]
  decide

/-- The note alone in the index. -/
theorem lookup_note (id : Bytes32) (y : Event) :
    (Index.new.insert (note 0)).2.byId.lookup id = some y ↔ y = note 0 ∧ y.id = id := by
  have h := (separate_singleton (note 0)).holds_foldl id y
  simpa using h

/-- The segment after the insert of the note. -/
def noteSegment : Option Bytes := some ((some []).getD [] ++ Wal.encodeOp (.insert (note 0).raw))

theorem segmentRecs_noteSegment : segmentRecs noteExt noteSegment = [.put (note 0)] := by
  have hfit : Wal.Fits (.insert (note 0).raw) := note_readable.fits
  unfold noteSegment
  rw [(Store.whole_nil.append (x := noteExt) hfit).2, note_readable.recorded.parseOp]
  rfl

end Memlay

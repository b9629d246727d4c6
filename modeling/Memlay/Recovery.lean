import Memlay.IndexBoard
import Memlay.Store

/-!
# What the files recover to

With no memory limit `load_from_disk` applies every record it reads, so the
outcome is `recover`: the events of the snapshot and the records of the two
segments, applied in order to an empty index.  On the board this is a replay.

A segment that the store has written is `Whole`: a list of records that fit.
Appending a record to it appends the record to what a load applies.
-/

namespace Memlay
namespace Store

open Index (Shows Inv Agree Fields rules)
open Registers (Board)

/-! ## Recovery without a memory limit -/

def redo (s : Index) : Rec → Index
  | .put e => (s.insert e).2
  | .remove id => (s.remove id).2
  | .bury id => ((s.tombstone id).remove id).2

/-- What a load applies, in order. -/
def diskRecs (x : Ext) (f : Files) : List Rec :=
  (snapshotRecs x f.events).map .put ++ (segmentRecs x f.walOld ++ segmentRecs x f.wal)

/-- The index a load builds from the files. -/
def recover (x : Ext) (f : Files) : Index := (diskRecs x f).foldl redo .new

theorem replayOp_zero (s : Index) (a : Rec) : replayOp 0 s a = some (redo s a) := by
  cases a with
  | put e => exact Index.ingest_zero s e
  | remove id => rfl
  | bury id => rfl

theorem foldlM_some {α β : Type} (step : β → α → Option β) (f : β → α → β)
    (h : ∀ b a, step b a = some (f b a)) (as : List α) (b : β) :
    as.foldlM step b = some (as.foldl f b) := by
  induction as generalizing b with
  | nil => rfl
  | cons a as ih =>
    rw [List.foldlM_cons, h]
    exact ih (f b a)

theorem replayFiles_zero (x : Ext) (f : Files) :
    replayFiles x 0 .new f = some ((diskRecs x f).length, recover x f) := by
  have hsnap := foldlM_some _ (fun s e => (Index.insert s e).2) Index.ingest_zero
    (snapshotRecs x f.events) .new
  have hsegs := foldlM_some _ redo replayOp_zero
    (segmentRecs x f.walOld ++ segmentRecs x f.wal)
    ((snapshotRecs x f.events).foldl (fun s e => (Index.insert s e).2) .new)
  unfold replayFiles recover diskRecs
  simp only [hsnap, hsegs, bind, Option.bind, pure, List.length_append, List.length_map,
    List.foldl_append, List.foldl_map]
  rfl

/-! ## Where recovered events come from

With any memory limit. -/

section
variable {maxBytes : Usize} {s s' : Index} {id : Bytes32} {y : Event}

/-- What is live after the snapshot loop was live before it or is in the snapshot. -/
theorem lookup_of_foldlM_ingest {es : List Event}
    (hs : es.foldlM (fun s e => s.ingest maxBytes e) s = some s') (h : s'.byId.lookup id = some y) :
    (y ∈ es ∧ y.id = id) ∨ s.byId.lookup id = some y := by
  induction es generalizing s with
  | nil =>
    cases hs
    exact Or.inr h
  | cons e es ih =>
    rw [List.foldlM_cons] at hs
    obtain ⟨s₁, h₁, hs⟩ := Option.bind_eq_some_iff.1 hs
    rcases ih hs with ⟨hy, hid⟩ | hl
    · exact Or.inl ⟨List.mem_cons_of_mem e hy, hid⟩
    · rcases Index.lookup_of_ingest h₁ hl with ⟨rfl, hid⟩ | hl
      · exact Or.inl ⟨by simp, hid.symm⟩
      · exact Or.inr hl

theorem lookup_of_foldlM_replayOp {recs : List Rec} (hs : recs.foldlM (replayOp maxBytes) s = some s')
    (h : s'.byId.lookup id = some y) : Rec.put y ∈ recs ∨ s.byId.lookup id = some y := by
  induction recs generalizing s with
  | nil =>
    cases hs
    exact Or.inr h
  | cons a recs ih =>
    rw [List.foldlM_cons] at hs
    obtain ⟨s₁, h₁, hs⟩ := Option.bind_eq_some_iff.1 hs
    rcases ih hs with hy | hl
    · exact Or.inl (List.mem_cons_of_mem a hy)
    · cases a with
      | put e =>
        rcases Index.lookup_of_ingest h₁ hl with ⟨rfl, -⟩ | hl
        · exact Or.inl (by simp)
        · exact Or.inr hl
      | remove i =>
        cases h₁
        exact Or.inr (Index.lookup_of_internalRemove hl)
      | bury i =>
        cases h₁
        have hl' : (s.tombstone i).byId.lookup id = some y := Index.lookup_of_internalRemove hl
        exact Or.inr hl'

/-- A recovered event was put by a record of the files. -/
theorem put_mem_of_replayFiles {x : Ext} {f : Files} {applied : Nat}
    (hs : replayFiles x maxBytes .new f = some (applied, s')) (h : s'.byId.lookup id = some y) :
    Rec.put y ∈ diskRecs x f := by
  unfold replayFiles at hs
  simp only [bind, Option.bind_eq_some_iff] at hs
  obtain ⟨s₁, h₁, s₂, h₂, hret⟩ := hs
  cases hret
  refine List.mem_append.2 ?_
  rcases lookup_of_foldlM_replayOp h₂ h with hy | hl
  · exact Or.inr hy
  · rcases lookup_of_foldlM_ingest h₁ hl with ⟨hy, -⟩ | hnew
    · exact Or.inl (List.mem_map_of_mem hy)
    · cases hnew

end

/-! ## Segments -/

/-- The bytes of a list of records, each of which the size check lets through. -/
def Whole (segment : Option Bytes) : Prop :=
  ∃ ops, segment.getD [] = Wal.encodeAll ops ∧ ∀ op ∈ ops, Wal.Fits op

theorem whole_none : Whole none := ⟨[], rfl, fun _ h => absurd h List.not_mem_nil⟩

theorem whole_nil : Whole (some []) := ⟨[], rfl, fun _ h => absurd h List.not_mem_nil⟩

theorem segmentRecs_none (x : Ext) : segmentRecs x none = [] := rfl

theorem segmentRecs_getD (x : Ext) (segment : Option Bytes) :
    segmentRecs x (some (segment.getD [])) = segmentRecs x segment := by
  cases segment <;> rfl

theorem diskRecs_openWal (x : Ext) (f : Files) : diskRecs x f.openWal = diskRecs x f := by
  unfold diskRecs
  show _ ++ (_ ++ segmentRecs x (some (f.wal.getD []))) = _
  rw [segmentRecs_getD]
  rfl

theorem recover_openWal (x : Ext) (f : Files) : recover x f.openWal = recover x f := by
  unfold recover
  rw [diskRecs_openWal]

/-- A load from the files, to its end. -/
theorem loadFromDisk_new (x : Ext) (es : List Event) (f : Files) :
    (new f).loadFromDisk x 0 es = some (
      if 0 < (diskRecs x f).length then
        ⟨recover x f, ⟨some (writeSnapshot es), none, some []⟩, .wal⟩
      else ⟨recover x f, ⟨f.events, none, f.openWal.wal⟩, .wal⟩) := by
  have hreplay : replayFiles x 0 (new f).index (new f).files =
      some ((diskRecs x f).length, recover x f) := by
    rw [← diskRecs_openWal, ← recover_openWal]
    exact replayFiles_zero x f.openWal
  unfold loadFromDisk
  rw [hreplay]
  by_cases hn : 0 < (diskRecs x f).length
  · simp only [bind, Option.bind, hn, if_true]
    rfl
  · simp only [bind, Option.bind, hn, if_false]
    rfl

theorem segmentRecs_of_encodeAll {x : Ext} {segment : Option Bytes} {ops : List WalOp}
    (h : segment.getD [] = Wal.encodeAll ops) (hfit : ∀ op ∈ ops, Wal.Fits op) :
    segmentRecs x segment = ops.filterMap (parseOp x) := by
  cases segment with
  | none =>
    have hlen := Wal.length_le_encodeAll ops
    rw [← h] at hlen
    rw [List.length_eq_zero_iff.1 (Nat.le_zero.1 hlen)]
    rfl
  | some bs =>
    have hbs : bs = Wal.encodeAll ops := h
    show ((([bs].map Wal.records).flatten).filterMap (parseOp x)) = _
    rw [hbs, List.map_singleton, Wal.records_encodeAll hfit, List.flatten_singleton]

/-- The record of the event's insert is read back as it was written. -/
structure Recorded (x : Ext) (e : Event) : Prop where
  parses : Event.fromJsonUnchecked x e.raw = .ok e
  fits : e.raw.length ≤ maxWalRecordSize

theorem Recorded.parseOp {x : Ext} {e : Event} (h : Recorded x e) : parseOp x (.insert e.raw) = some (.put e) := by
  simp only [Store.parseOp, h.parses]
  rfl

/-- Appending a record to a segment. -/
theorem Whole.append {x : Ext} {segment : Option Bytes} (h : Whole segment) {op : WalOp}
    (hop : Wal.Fits op) :
    Whole (some (segment.getD [] ++ Wal.encodeOp op)) ∧
      segmentRecs x (some (segment.getD [] ++ Wal.encodeOp op)) =
        segmentRecs x segment ++ (parseOp x op).toList := by
  obtain ⟨ops, hops, hfit⟩ := h
  have heq : (some (segment.getD [] ++ Wal.encodeOp op)).getD [] = Wal.encodeAll (ops ++ [op]) := by
    rw [Wal.encodeAll_append, Wal.encodeAll_singleton, ← hops]
    rfl
  have hall : ∀ o ∈ ops ++ [op], Wal.Fits o := by
    intro o ho
    rcases List.mem_append.1 ho with ho | ho
    · exact hfit o ho
    · rwa [List.mem_singleton.1 ho]
  refine ⟨⟨ops ++ [op], heq, hall⟩, ?_⟩
  rw [segmentRecs_of_encodeAll heq hall, segmentRecs_of_encodeAll hops hfit, List.filterMap_append]
  rfl

/-! ## The board's view -/

/-- The record as the board has it. -/
def Rec.onBoard : Rec → Registers.Rec Bytes32
  | .put e => .put e.id
  | .remove id => .drop id
  | .bury id => .bury id

/-- The record's event is one of `E`. -/
def Rec.In (E : Event → Prop) : Rec → Prop
  | .put e => E e
  | _ => True

section
variable {E : Event → Prop} {fields : Bytes32 → Event} {s : Index} {b : Board Bytes32 Index.Slot}

theorem inv_redo (hA : Agree E) (hI : Inv E s) {a : Rec} (ha : a.In E) : Inv E (redo s a) := by
  cases a with
  | put e => exact hI.insert hA ha
  | remove id => exact hI.internalRemove id true
  | bury id => exact (hI.tombstone id).internalRemove id true

theorem shows_redo (hF : Fields E fields) (hA : Agree E) (hI : Inv E s) (h : Shows fields s b)
    {a : Rec} (ha : a.In E) : Shows fields (redo s a) (Registers.redo (rules fields) b a.onBoard) := by
  cases a with
  | put e => exact (h.insert hF hI hA ha).1
  | remove id => exact h.internalRemove hI id true
  | bury id => exact h.bury hI id

/-- Replaying records on the index is replaying them on the board. -/
theorem shows_foldl (hF : Fields E fields) (hA : Agree E) {recs : List Rec}
    (hrecs : ∀ a ∈ recs, a.In E) (hI : Inv E s) (h : Shows fields s b) :
    Inv E (recs.foldl redo s) ∧
      Shows fields (recs.foldl redo s) (Registers.replay (rules fields) b (recs.map Rec.onBoard)) := by
  induction recs generalizing s b with
  | nil => exact ⟨hI, h⟩
  | cons a recs ih =>
    have ha := hrecs a (by simp)
    exact ih (fun c hc => hrecs c (List.mem_cons_of_mem a hc)) (inv_redo hA hI ha)
      (shows_redo hF hA hI h ha)

/-- The board a load of the files shows. -/
noncomputable def diskBoard (fields : Bytes32 → Event) (x : Ext) (f : Files) : Board Bytes32 Index.Slot :=
  Registers.replay (rules fields) Registers.empty ((diskRecs x f).map Rec.onBoard)

theorem shows_recover (hF : Fields E fields) (hA : Agree E) {x : Ext} {f : Files}
    (hrecs : ∀ a ∈ diskRecs x f, a.In E) :
    Inv E (recover x f) ∧ Shows fields (recover x f) (diskBoard fields x f) :=
  shows_foldl hF hA hrecs (Index.inv_new E) Index.shows_new

/-- Two indexes with the same live ids show the same holders. -/
theorem holder_eq_of_live {s' : Index} {b' : Board Bytes32 Index.Slot} (h : Shows fields s b)
    (h' : Shows fields s' b')
    (hlive : ∀ id, (∃ y, s.byId.lookup id = some y) ↔ ∃ y, s'.byId.lookup id = some y) :
    b.holder = b'.holder := by
  have hone : ∀ {s s' : Index} {b b' : Board Bytes32 Index.Slot}, Shows fields s b →
      Shows fields s' b' → (∀ id, (∃ y, s.byId.lookup id = some y) → ∃ y, s'.byId.lookup id = some y) →
      ∀ k id, b.holder k = some id → b'.holder k = some id := by
    intro s s' b b' h h' hsub k id hk
    have := (h'.live id).1 (hsub id (h.lookup_of_holder hk))
    rwa [h.own k id hk] at this
  funext k
  cases hb : b.holder k with
  | some id => exact (hone h h' (fun id => (hlive id).1) k id hb).symm
  | none =>
    cases hb' : b'.holder k with
    | none => rfl
    | some id =>
      rw [hone h' h (fun id => (hlive id).2) k id hb'] at hb
      cases hb

/-! ## A snapshot of the live events -/

/-- The live events of an index are separate, in any order. -/
theorem separate_of_perm (hI : Inv E s) {es : List Event} (hp : es.Perm s.iterAll) : Separate es := by
  have hids : s.iterAll.map Event.id = s.byId.entries.map (·.1) := by
    unfold Index.iterAll Table.values
    rw [List.map_map]
    refine List.map_congr_left fun p hp => ?_
    exact (hI.mem p.1 p.2 (AList.mem_lookup_iff.2 hp)).2
  have hnd : (es.map Event.id).Nodup := by
    rw [(hp.map Event.id).nodup_iff, hids]
    exact s.byId.nodupKeys
  refine ⟨hnd, hnd.of_map.pairwise_of_forall_ne fun a ha c hc hac hn hk => hac ?_⟩
  have hlive : ∀ a ∈ es, s.byId.lookup a.id = some a := by
    intro a ha
    obtain ⟨id, hid⟩ := Table.mem_values_iff.1 (hp.subset ha)
    rwa [(hI.mem id a hid).2]
  have hr : a.isReplaceable = true := by
    cases h : a.isReplaceable with
    | true => rfl
    | false => exact absurd ((Event.replacementKey_eq_none_iff a).2 h) hn
  exact hI.unique (hlive a ha) (hlive c hc) hr hk

end
end Store
end Memlay

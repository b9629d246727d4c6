import Memlay.Lib.Lapses
import Memlay.SequentialRecovery
import Memlay.StaysDeleted

/-!
# Recovery of a store that evicts

An eviction round takes events out of memory and leaves no record: the log and the
snapshot still have them.  After a crash they can come back, and an older version
that was stored while a newer one was evicted gives way to it again.

    Trail              along every run of operations, eviction rounds, checkpoints and
                       restarts, the segments hold a history with lapses that ends in the
                       index, and the snapshot is on its way
    recovers_evicted   a load that has room brings every live event back, or a version
                       that beats it, and nothing that is deleted
-/

namespace Memlay

open Index (Shows Inv Agree Fields rules Slot Kept)
open Registers (Board Lapsing Way Sound)
open Store (Rec diskRecs segmentRecs snapshotRecs Whole recover)

/-! ## The index after an eviction round -/

namespace Index

section
variable {E : Event → Prop} {fields : Bytes32 → Event} {s : Index}

/-- Eviction makes nothing live. -/
theorem lookup_of_maybeEvict {maxBytes processMem amplification : Usize} {id : Bytes32} {y : Event}
    (h : (s.maybeEvict maxBytes processMem amplification).byId.lookup id = some y) :
    s.byId.lookup id = some y :=
  maybeEvict_keeps (P := fun t => t.byId.lookup id = some y → s.byId.lookup id = some y)
    (fun _ _ ht hy => ht (lookup_of_internalRemove hy)) (fun hy => hy) maxBytes processMem amplification h

/-- Every index of a run shows a board. -/
theorem Kept.exists_shows (h : Kept E s) (hF : Fields E fields) : ∃ b, Shows fields s b := by
  classical
  have hone : ∀ {id id' : Bytes32} {y y' : Event}, s.byId.lookup id = some y → s.byId.lookup id' = some y' →
      (rules fields).key id = (rules fields).key id' → id = id' := by
    intro id id' y y' hy hy' hk
    obtain ⟨hE, rfl⟩ := h.inv.mem _ _ hy
    obtain ⟨hE', rfl⟩ := h.inv.mem _ _ hy'
    rcases (hF.key_eq_iff hE hE').1 hk with he | ⟨hr, hkey⟩
    · exact he
    · rw [h.inv.unique hy' hy hr hkey.symm]
  let P : Slot → Bytes32 → Prop := fun k id => (∃ y, s.byId.lookup id = some y) ∧ (rules fields).key id = k
  refine ⟨⟨fun k => if hk : ∃ id, P k id then some hk.choose else none, s.tombstones.order⟩, fun id => ?_,
    fun k id hk => ?_, rfl, h.ordered⟩
  · simp only
    constructor
    · rintro ⟨y, hy⟩
      have hk : ∃ id', P ((rules fields).key id) id' := ⟨id, ⟨y, hy⟩, rfl⟩
      obtain ⟨⟨y', hy'⟩, hkey⟩ := hk.choose_spec
      rw [dif_pos hk, hone hy' hy hkey]
    · intro hh
      split at hh
      · rename_i hk
        rw [← Option.some.inj hh]
        exact hk.choose_spec.1
      · cases hh
  · simp only at hk
    split at hk
    · rename_i hex
      rw [← Option.some.inj hk]
      exact hex.choose_spec.2
    · cases hk

end
end Index

/-! ## A load with room -/

namespace Store

section
variable {x : Ext} {maxBytes : Usize} {f : Files}

/-- No record of the files takes the memory of a load over the eviction threshold. -/
def Roomy (x : Ext) (maxBytes : Usize) (f : Files) : Prop :=
  maxBytes = 0 ∨ ∀ recs, recs <+: diskRecs x f → (recs.foldl redo .new).memoryBytes ≤ maxBytes * 90 / 100

/-- A load applies the records of its files one after the other. -/
theorem replayFiles_eq (x : Ext) (maxBytes : Usize) (s : Index) (f : Files) :
    replayFiles x maxBytes s f =
      ((diskRecs x f).foldlM (replayOp maxBytes) s).map fun s => ((diskRecs x f).length, s) := by
  have hputs : ∀ (es : List Event) (s : Index),
      (es.map Rec.put).foldlM (replayOp maxBytes) s = es.foldlM (fun s e => s.ingest maxBytes e) s := by
    intro es
    induction es with
    | nil => exact fun s => rfl
    | cons e es ih =>
      intro s
      rw [List.map_cons, List.foldlM_cons, List.foldlM_cons]
      exact congrArg _ (funext ih)
  unfold replayFiles diskRecs
  rw [List.foldlM_append, hputs, List.length_append, List.length_map]
  simp only [bind, pure, Option.map_bind]
  congr 1
  funext s
  exact Option.map_eq_bind.symm

theorem replayOp_of_room {s : Index} {a : Rec} (h : (redo s a).memoryBytes ≤ maxBytes * 90 / 100) :
    replayOp maxBytes s a = some (redo s a) := by
  cases a with
  | put e =>
    show s.ingest maxBytes e = some (s.insert e).2
    unfold Index.ingest
    simp only
    rw [if_neg]
    exact fun hc => BitVec.not_lt.2 h hc.2
  | remove id => rfl
  | bury id => rfl

/-- A load with room evicts nothing. -/
theorem Roomy.replay (h : Roomy x maxBytes f) :
    replayFiles x maxBytes .new f = some ((diskRecs x f).length, recover x f) := by
  rcases h with rfl | h
  · exact replayFiles_zero x f
  · have hfold : ∀ (recs : List Rec) (s : Index),
        (∀ p, p <+: recs → (p.foldl redo s).memoryBytes ≤ maxBytes * 90 / 100) →
          recs.foldlM (replayOp maxBytes) s = some (recs.foldl redo s) := by
      intro recs
      induction recs with
      | nil => exact fun s _ => rfl
      | cons a recs ih =>
        intro s hs
        rw [List.foldlM_cons, replayOp_of_room (hs [a] (List.prefix_append [a] recs))]
        refine ih (redo s a) fun p hp => hs (a :: p) ?_
        exact (List.prefix_cons_inj a).2 hp
    rw [replayFiles_eq, hfold _ _ h]
    rfl

theorem Roomy.load (h : Roomy x maxBytes f) (es : List Event) :
    ∃ st, (new f).loadFromDisk x maxBytes es = some st ∧ st.index = recover x f := by
  have hrep : replayFiles x maxBytes (new f).index (new f).files = some ((diskRecs x f).length, recover x f) := by
    rw [replayFiles_eq, show (new f).files = f.openWal from rfl, diskRecs_openWal, ← replayFiles_eq]
    exact h.replay
  unfold loadFromDisk
  rw [hrep]
  simp only [bind, Option.bind]
  split
  · exact ⟨_, rfl, getD_checkpoint_index _ es⟩
  · exact ⟨_, rfl, rfl⟩

/-- The store after a load, by the index it has built. -/
theorem loadFromDisk_cases {es : List Event} {st : Store} (h : (new f).loadFromDisk x maxBytes es = some st) :
    ∃ s, (diskRecs x f).foldlM (replayOp maxBytes) .new = some s ∧ st =
      if 0 < (diskRecs x f).length then ⟨s, ⟨some (writeSnapshot es), none, some []⟩, .wal⟩
      else ⟨s, ⟨f.events, none, f.openWal.wal⟩, .wal⟩ := by
  unfold loadFromDisk at h
  obtain ⟨⟨applied, s⟩, hrep, h⟩ := Option.bind_eq_some_iff.1 h
  rw [replayFiles_eq, show (new f).files = f.openWal from rfl, diskRecs_openWal] at hrep
  obtain ⟨s', hs', he⟩ := Option.map_eq_some_iff.1 hrep
  cases he
  refine ⟨s, hs', ?_⟩
  by_cases hn : 0 < (diskRecs x f).length
  · simp only [hn, if_true] at h ⊢
    cases h
    rfl
  · simp only [hn, if_false] at h ⊢
    cases h
    rfl

end
end Store

/-! ## Runs -/

namespace Evicting

inductive Turn where
  /-- an operation, or a step of a checkpoint -/
  | act (a : Action)
  /-- an eviction round, with the limit, the process memory and the amplification it reads -/
  | evict (maxBytes processMem amplification : Usize)
  /-- the process dies, and the next one loads the files with this limit -/
  | reload (maxBytes : Usize) (es : List Event)

def step (x : Ext) (s : Sys) : Turn → Option Sys
  | .act a => Sys.step x s a
  | .evict maxBytes processMem amplification =>
    some { s with store := { s.store with index := s.store.index.maybeEvict maxBytes processMem amplification } }
  | .reload maxBytes es =>
    ((Store.new s.store.files).loadFromDisk x maxBytes es).bind fun st =>
      if es.Perm st.index.iterAll then some ⟨st, .idle, true⟩ else none

/-- A checkpoint attempt goes on to its end, unless the process dies. -/
def Turn.Proceeds : Turn → Prop
  | .act a => a.Proceeds
  | _ => True

/-- The events a run inserts. -/
def Inserted (as : List Turn) (e : Event) : Prop := Turn.act (.insert e) ∈ as

/-! ## The invariant -/

/-- The segments hold one history with lapses: from `b₀` to `b₁` in `wal.log.old`, on to
the index's own board `b` in `wal.log`; the slots of the snapshot are on its way. -/
structure Trail (x : Ext) (E : Event → Prop) (fields : Bytes32 → Event)
    (b₀ b₁ b : Board Bytes32 Slot) (s : Sys) : Prop where
  wholeOld : Whole s.store.files.walOld
  wholeWal : Whole s.store.files.wal
  recsIn : ∀ a ∈ diskRecs x s.store.files, a.In E
  kept : Kept E s.store.index
  shows : Shows fields s.store.index b
  sound : Sound (rules fields) b₀
  old : Lapsing (rules fields) b₀ (onBoard x s.store.files.walOld) b₁
  wal : Lapsing (rules fields) b₁ (onBoard x s.store.files.wal) b
  /-- the handle is on the rotated segment only while the log is locked -/
  locked : s.store.handle = .old → s.phase = .renamed
  snapshot : Way (rules fields) b₀ (onBoard x s.store.files.walOld ++ onBoard x s.store.files.wal) b
    (holderOf fields (snapshotRecs x s.store.files.events))
  /-- outside a checkpoint, and at its end, the snapshot was taken after the rotation -/
  superseded : s.phase = .idle ∨ s.phase = .written → Way (rules fields) b₁ (onBoard x s.store.files.wal) b
    (holderOf fields (snapshotRecs x s.store.files.events))
  collected : ∀ es, s.phase = .collected es → (∀ e ∈ es, E e) ∧
    Way (rules fields) b₁ (onBoard x s.store.files.wal) b (holderOf fields es)

section
variable {x : Ext} {E : Event → Prop} {fields : Bytes32 → Event} {b₀ b₁ b : Board Bytes32 Slot} {s s' : Sys}

/-- What is logged behind the handle, or lapses, extends the history at its end. -/
theorem Trail.extend (h : Trail x E fields b₀ b₁ b s) {st' : Store} {recs : List Rec} {b' : Board Bytes32 Slot}
    (happ : Store.Appends x s.store st' recs) (hlock : s.phase = .renamed → recs = [])
    (hin : ∀ a ∈ recs, a.In E) (hlapse : Lapsing (rules fields) b (recs.map Rec.onBoard) b')
    (hshows : Shows fields st'.index b') (hkept : Kept E st'.index) :
    Trail x E fields b₀ b₁ b' { s with store := st' } := by
  have hrecs : onBoard x st'.files.walOld = onBoard x s.store.files.walOld ∧
      onBoard x st'.files.wal = onBoard x s.store.files.wal ++ recs.map Rec.onBoard := by
    unfold onBoard
    cases hh : s.store.handle with
    | wal =>
      obtain ⟨h1, h2⟩ := happ.onWal hh
      rw [h1, h2, List.map_append]
      exact ⟨rfl, rfl⟩
    | old =>
      obtain ⟨h1, h2⟩ := happ.onOld hh
      rw [h1, h2, hlock (h.locked hh), List.append_nil, List.map_nil, List.append_nil]
      exact ⟨rfl, rfl⟩
  obtain ⟨hold, hwal⟩ := hrecs
  refine ⟨happ.wholeOld, happ.wholeWal, fun a ha => ?_, hkept, hshows, h.sound, ?_, ?_, fun hh => ?_, ?_,
    fun hp => ?_, fun es hes => ?_⟩
  · rcases happ.mem_diskRecs.1 ha with ha | ha
    · exact h.recsIn a ha
    · exact hin a ha
  · show Lapsing _ _ (onBoard x st'.files.walOld) _
    rw [hold]
    exact h.old
  · show Lapsing _ _ (onBoard x st'.files.wal) _
    rw [hwal]
    exact h.wal.trans hlapse
  · rw [happ.handle] at hh
    exact h.locked hh
  · show Way _ _ (onBoard x st'.files.walOld ++ onBoard x st'.files.wal) _
      (holderOf fields (snapshotRecs x st'.files.events))
    rw [hold, hwal, happ.events, ← List.append_assoc]
    exact h.snapshot.append hlapse
  · show Way _ _ (onBoard x st'.files.wal) _ (holderOf fields (snapshotRecs x st'.files.events))
    rw [hwal, happ.events]
    exact (h.superseded hp).append hlapse
  · obtain ⟨hE, hway⟩ := h.collected es hes
    refine ⟨hE, ?_⟩
    show Way _ _ (onBoard x st'.files.wal) _ _
    rw [hwal]
    exact hway.append hlapse

theorem Trail.logs (h : Trail x E fields b₀ b₁ b s) (hlock : s.phase ≠ .renamed) {st' : Store}
    {b' : Board Bytes32 Slot} (hl : Store.Logs x E fields s.store b st' b') (hkept : Kept E st'.index) :
    Trail x E fields b₀ b₁ b' { s with store := st' } := by
  obtain ⟨recs, happ, hin, hhist⟩ := hl.recs
  exact h.extend happ (fun hp => absurd hp hlock) hin hhist.lapsing hl.shows hkept

/-- Evicted events lapse: their records stay. -/
theorem Trail.evict (h : Trail x E fields b₀ b₁ b s) (hF : Fields E fields) (hA : Agree E)
    (maxBytes processMem amplification : Usize) :
    ∃ b', Trail x E fields b₀ b₁ b' { s with store :=
      { s.store with index := s.store.index.maybeEvict maxBytes processMem amplification } } := by
  have hkept := h.kept.maybeEvict hA maxBytes processMem amplification
  obtain ⟨b', hb'⟩ := hkept.exists_shows hF
  refine ⟨b', h.extend (Store.Appends.refl h.wholeOld h.wholeWal _) (fun _ => rfl)
    (fun a ha => absurd ha List.not_mem_nil) ?_ hb' hkept⟩
  refine (Lapsing.nil b).lapse (fun k id hk => ?_) ?_
  · obtain ⟨y, hy⟩ := hb'.lookup_of_holder hk
    rw [← hb'.own k id hk]
    exact h.shows.holder_of_lookup (Index.lookup_of_maybeEvict hy)
  · rw [hb'.buried, h.shows.buried, h.kept.maybeEvict_tombstones hA]

/-! ## The steps of a checkpoint -/

theorem Trail.rename (h : Trail x E fields b₀ b₁ b s) (hstep : Sys.step x s .rename = some s') :
    Trail x E fields b₁ b b s' := by
  obtain ⟨hidle, segment, hwal, rfl⟩ := Sys.step_rename hstep
  have hwhole := h.wholeWal
  have hlapse := h.wal
  have hway := h.superseded (Or.inl hidle)
  rw [hwal] at hwhole hlapse hway
  refine ⟨hwhole, Store.whole_none, fun a ha => h.recsIn a ?_, h.kept, h.shows, h.old.sound h.sound, hlapse,
    .nil b, fun _ => rfl, ?_, ?_, fun es hes => by cases hes⟩
  · rw [mem_diskRecs] at ha ⊢
    rcases ha with ha | ha | ha
    · exact Or.inl ha
    · exact Or.inr (Or.inr (by rw [hwal]; exact ha))
    · exact absurd ha List.not_mem_nil
  · show Way _ _ (onBoard x (some segment) ++ onBoard x none) _ _
    rw [show onBoard x none = [] from rfl, List.append_nil]
    exact hway
  · rintro (hp | hp) <;> cases hp

theorem Trail.reopen (h : Trail x E fields b₀ b₁ b s) (hstep : Sys.step x s .reopen = some s') :
    Trail x E fields b₀ b₁ b s' := by
  obtain ⟨-, rfl⟩ := Sys.step_reopen hstep
  have hwal : onBoard x s.store.openWal.files.wal = onBoard x s.store.files.wal := by
    unfold onBoard
    show (segmentRecs x (some (s.store.files.wal.getD []))).map _ = _
    rw [Store.segmentRecs_getD]
  refine ⟨h.wholeOld, h.wholeWal, fun a ha => h.recsIn a ?_, h.kept, h.shows, h.sound, h.old, hwal ▸ h.wal,
    (fun hh => by cases hh), ?_, ?_, fun es hes => by cases hes⟩
  · rw [← Store.diskRecs_openWal]
    exact ha
  · show Way _ _ (_ ++ onBoard x s.store.openWal.files.wal) _ _
    rw [hwal]
    exact h.snapshot
  · rintro (hp | hp) <;> cases hp

theorem Trail.collect (h : Trail x E fields b₀ b₁ b s) (hF : Fields E fields) (hA : Agree E) {es : List Event}
    (hstep : Sys.step x s (.collect es) = some s') : Trail x E fields b₀ b₁ b s' := by
  obtain ⟨hrot, hperm, rfl⟩ := Sys.step_collect hstep
  refine ⟨h.wholeOld, h.wholeWal, h.recsIn, h.kept, h.shows, h.sound, h.old, h.wal, fun hh => ?_, h.snapshot, ?_,
    fun es' hes => ?_⟩
  · have hp := h.locked hh
    rw [hrot] at hp
    cases hp
  · rintro (hp | hp) <;> cases hp
  · cases hes
    refine ⟨fun e he => ?_, ?_⟩
    · obtain ⟨id, hid⟩ := Table.mem_values_iff.1 (hperm.subset he)
      exact (h.kept.inv.mem id e hid).1
    · rw [holderOf_perm hF hA h.kept.inv h.shows hperm]
      exact h.wal.way_last

/-- The records of a snapshot of readable events. -/
theorem mem_diskRecs_writeSnapshot {es : List Event} (hread : ∀ e ∈ es, e.Readable x) {f : Files} {a : Rec}
    (ha : a ∈ diskRecs x { f with events := some (writeSnapshot es) }) :
    (∃ e ∈ es, a = .put e) ∨ a ∈ segmentRecs x f.walOld ∨ a ∈ segmentRecs x f.wal := by
  rcases mem_diskRecs.1 ha with ha | ha
  · have ha' : a ∈ (snapshotRecs x (some (writeSnapshot es))).map Rec.put := ha
    rw [Store.snapshotRecs_writeSnapshot hread] at ha'
    obtain ⟨e, he, rfl⟩ := List.mem_map.1 ha'
    exact Or.inl ⟨e, he, rfl⟩
  · exact Or.inr ha

theorem Trail.renameSnapshot (h : Trail x E fields b₀ b₁ b s) (hread : ∀ e, E e → e.Readable x)
    (hstep : Sys.step x s .renameSnapshot = some s') : Trail x E fields b₀ b₁ b s' := by
  obtain ⟨es, hes, rfl⟩ := Sys.step_renameSnapshot hstep
  obtain ⟨hE, hway⟩ := h.collected es hes
  have hread' : ∀ e ∈ es, e.Readable x := fun e he => hread e (hE e he)
  have hsnap : snapshotRecs x (s.store.putSnapshot es).files.events = es :=
    Store.snapshotRecs_writeSnapshot hread'
  refine ⟨h.wholeOld, h.wholeWal, fun a ha => ?_, h.kept, h.shows, h.sound, h.old, h.wal, fun hh => ?_, ?_,
    fun _ => ?_, fun es' hes' => by cases hes'⟩
  · rcases mem_diskRecs_writeSnapshot hread' ha with ⟨e, he, rfl⟩ | ha
    · exact hE e he
    · exact h.recsIn a (mem_diskRecs.2 (Or.inr ha))
  · have hp := h.locked hh
    rw [hes] at hp
    cases hp
  · show Way _ _ _ _ (holderOf fields (snapshotRecs x (s.store.putSnapshot es).files.events))
    rw [hsnap]
    exact hway.prepend h.old
  · show Way _ _ _ _ (holderOf fields (snapshotRecs x (s.store.putSnapshot es).files.events))
    rw [hsnap]
    exact hway

theorem Trail.removeOld (h : Trail x E fields b₀ b₁ b s) {ok : Bool}
    (hstep : Sys.step x s (.removeOld ok) = some s') : ∃ c₀, Trail x E fields c₀ b₁ b s' := by
  obtain ⟨hw, rfl⟩ := Sys.step_removeOld hstep
  have hhandle : s.store.handle ≠ .old := by
    intro hh
    have hp := h.locked hh
    rw [hw] at hp
    cases hp
  have hway := h.superseded (Or.inr hw)
  cases ok with
  | false =>
    exact ⟨b₀, h.wholeOld, h.wholeWal, h.recsIn, h.kept, h.shows, h.sound, h.old, h.wal,
      fun hh => absurd hh hhandle, h.snapshot, fun _ => hway, fun es hes => by cases hes⟩
  | true =>
    refine ⟨b₁, Store.whole_none, h.wholeWal, fun a ha => h.recsIn a ?_, h.kept, h.shows,
      h.old.sound h.sound, .nil b₁, h.wal, fun hh => absurd hh hhandle, hway, fun _ => hway,
      fun es hes => by cases hes⟩
    rw [mem_diskRecs] at ha ⊢
    rcases ha with ha | ha | ha
    · exact Or.inl ha
    · exact absurd ha List.not_mem_nil
    · exact Or.inr (Or.inr ha)

/-! ## Restarts -/

/-- A load starts a new history, whatever it has evicted: its snapshot is of its own index. -/
theorem Trail.reload (h : Trail x E fields b₀ b₁ b s) (hF : Fields E fields) (hA : Agree E)
    (hread : ∀ e, E e → e.Readable x) {maxBytes : Usize} {es : List Event}
    (hstep : step x s (.reload maxBytes es) = some s') : ∃ c, Trail x E fields c c c s' := by
  simp only [step] at hstep
  obtain ⟨st, hload, hstep⟩ := Option.bind_eq_some_iff.1 hstep
  split at hstep
  · rename_i hperm
    cases hstep
    obtain ⟨t, hfold, hst⟩ := Store.loadFromDisk_cases hload
    have hkept : Kept E t := Store.foldlM_keeps
        (fun a ha _ _ hk hi => Store.kept_replayOp hk hA (h.recsIn a ha) hi)
      (Index.kept_new E) hfold
    have hindex : st.index = t := by
      rw [hst]
      split <;> rfl
    rw [hindex] at hperm
    obtain ⟨c, hc⟩ := hkept.exists_shows hF
    have hsound := hc.sound hkept.untombed
    refine ⟨c, ?_⟩
    by_cases hn : 0 < (diskRecs x s.store.files).length
    · rw [if_pos hn] at hst
      subst hst
      have hE : ∀ e ∈ es, E e := by
        intro e he
        obtain ⟨id, hid⟩ := Table.mem_values_iff.1 (hperm.subset he)
        exact (hkept.inv.mem id e hid).1
      have hread' : ∀ e ∈ es, e.Readable x := fun e he => hread e (hE e he)
      have hsnap : snapshotRecs x (some (writeSnapshot es)) = es := Store.snapshotRecs_writeSnapshot hread'
      have hway : Way (rules fields) c [] c (holderOf fields (snapshotRecs x (some (writeSnapshot es)))) := by
        rw [hsnap, holderOf_perm hF hA hkept.inv hc hperm]
        exact (Lapsing.nil c).way_last
      refine ⟨Store.whole_none, Store.whole_nil, fun a ha => ?_, hkept, hc, hsound, .nil c, .nil c,
        (fun hh => by cases hh), hway, fun _ => hway, fun es' hes => by cases hes⟩
      rcases mem_diskRecs_writeSnapshot (f := ⟨none, none, some []⟩) hread' ha with ⟨e, he, rfl⟩ | ha | ha
      · exact hE e he
      · exact absurd ha List.not_mem_nil
      · exact absurd ha List.not_mem_nil
    · rw [if_neg hn] at hst
      subst hst
      -- nothing was applied: the files are without records, and the index is empty
      have hnil : diskRecs x s.store.files = [] := List.length_eq_zero_iff.1 (by omega)
      rw [hnil] at hfold
      cases hfold
      obtain ⟨hsnap, hsegs⟩ := List.append_eq_nil_iff.1 hnil
      obtain ⟨-, hwal⟩ := List.append_eq_nil_iff.1 hsegs
      have hwal' : onBoard x s.store.files.openWal.wal = [] := by
        unfold onBoard
        show (segmentRecs x (some (s.store.files.wal.getD []))).map _ = []
        rw [Store.segmentRecs_getD, hwal]
        rfl
      have hslots : holderOf fields (snapshotRecs x s.store.files.events) = c.holder := by
        rw [List.map_eq_nil_iff.1 hsnap]
        exact holderOf_perm hF hA hkept.inv hc (List.Perm.refl _)
      have hway : Way (rules fields) c [] c (holderOf fields (snapshotRecs x s.store.files.events)) := by
        rw [hslots]
        exact (Lapsing.nil c).way_last
      refine ⟨Store.whole_none, h.wholeWal, fun a ha => h.recsIn a ?_, hkept, hc, hsound, .nil c, ?_,
        (fun hh => by cases hh), ?_, fun _ => ?_, fun es' hes => by cases hes⟩
      · rw [mem_diskRecs] at ha ⊢
        rcases ha with ha | ha | ha
        · exact Or.inl ha
        · exact absurd ha List.not_mem_nil
        · refine Or.inr (Or.inr ?_)
          rw [← Store.segmentRecs_getD]
          exact ha
      · show Lapsing _ _ (onBoard x s.store.files.openWal.wal) _
        rw [hwal']
        exact .nil c
      · show Way _ _ (onBoard x none ++ onBoard x s.store.files.openWal.wal) _ _
        rw [hwal']
        exact hway
      · show Way _ _ (onBoard x s.store.files.openWal.wal) _ _
        rw [hwal']
        exact hway
  · cases hstep

/-! ## The run -/

theorem Trail.step (h : Trail x E fields b₀ b₁ b s) (hF : Fields E fields) (hA : Agree E)
    (hread : ∀ e, E e → e.Readable x) {t : Turn} (hins : ∀ e, t = .act (.insert e) → E e) (ht : t.Proceeds)
    (hstep : Evicting.step x s t = some s') : ∃ c₀ c₁ c, Trail x E fields c₀ c₁ c s' := by
  cases t with
  | evict maxBytes processMem amplification =>
    cases hstep
    obtain ⟨b', hb'⟩ := h.evict hF hA maxBytes processMem amplification
    exact ⟨_, _, _, hb'⟩
  | reload maxBytes es =>
    obtain ⟨c, hc⟩ := h.reload hF hA hread hstep
    exact ⟨_, _, _, hc⟩
  | act a =>
    replace hstep : Sys.step x s a = some s' := hstep
    cases a with
    | insert e =>
      have hE := hins e rfl
      obtain ⟨hlock, rfl⟩ := Sys.step_insert hstep
      obtain ⟨b', hl⟩ := Store.logs_insert hF hA h.kept.inv h.shows h.wholeOld h.wholeWal hE (hread e hE)
      exact ⟨_, _, _, h.logs hlock hl (Store.kept_insert h.kept hA fun _ => hE)⟩
    | deletion ids coordinates author until_ =>
      obtain ⟨hlock, rfl⟩ := Sys.step_deletion hstep
      obtain ⟨b', hl⟩ := Store.logs_applyDeletion h.kept.inv h.shows h.wholeOld h.wholeWal ids coordinates author
        until_
      exact ⟨_, _, _, h.logs hlock hl (Store.kept_applyDeletion h.kept hA ids coordinates author until_)⟩
    | rename => exact ⟨_, _, _, h.rename hstep⟩
    | reopen => exact ⟨_, _, _, h.reopen hstep⟩
    | collect es => exact ⟨_, _, _, h.collect hF hA hstep⟩
    | renameSnapshot => exact ⟨_, _, _, h.renameSnapshot hread hstep⟩
    | removeOld ok =>
      obtain ⟨c₀, hc⟩ := h.removeOld hstep
      exact ⟨_, _, _, hc⟩
    | giveUp => exact absurd ht id
    | restart es => exact absurd ht id

theorem trail_init : Trail x E fields Registers.empty Registers.empty Registers.empty Sys.init where
  wholeOld := Store.whole_none
  wholeWal := Store.whole_nil
  recsIn := fun a ha => absurd ha List.not_mem_nil
  kept := Index.kept_new E
  shows := Index.shows_new
  sound := Registers.sound_empty
  old := .nil _
  wal := .nil _
  locked := fun hh => by cases hh
  snapshot := (Lapsing.nil _).way_last
  superseded := fun _ => (Lapsing.nil _).way_last
  collected := fun es hes => by cases hes

/-- The run lemma. -/
theorem trail_run {as : List Turn} (hF : Fields (Inserted as) fields) (hA : Agree (Inserted as))
    (hread : ∀ e, Inserted as e → e.Readable x) (hgo : ∀ t ∈ as, t.Proceeds)
    (hrun : Machine.run (Evicting.step x) Sys.init as = some s) :
    ∃ b₀ b₁ b, Trail x (Inserted as) fields b₀ b₁ b s := by
  refine Machine.run_invariant (C := fun _ t => t ∈ as)
    (I := fun u => ∃ b₀ b₁ b, Trail x (Inserted as) fields b₀ b₁ b u) ?_ as Sys.init s hrun
    (Machine.along_of_forall as Sys.init fun t ht _ => ht) ⟨_, _, _, trail_init⟩
  rintro u t u' hstep hmem ⟨c₀, c₁, c, hc⟩
  exact hc.step hF hA hread (fun e he => by rw [he] at hmem; exact hmem) (hgo t hmem) hstep

/-! ## What a load brings back -/

/-- A live event is recovered, or a version that beats it. -/
theorem Trail.covers (h : Trail x E fields b₀ b₁ b s) (hF : Fields E fields) (hA : Agree E) {id : Bytes32}
    {y : Event} (hy : s.store.index.byId.lookup id = some y) :
    ∃ z, (recover x s.store.files).byId.lookup z.id = some z ∧
      (z.id = id ∨ y.isReplaceable = true ∧ z.replacementKey = y.replacementKey ∧ z.Beats y) := by
  obtain ⟨hI, hdisk⟩ := Store.shows_recover hF hA h.recsIn
  obtain ⟨hEy, rfl⟩ := h.kept.inv.mem _ _ hy
  have hcov := h.snapshot.covers h.sound (h.shows.holder_of_lookup hy)
  rw [← diskBoard_eq] at hcov
  obtain ⟨u, hu, hb⟩ := hcov
  obtain ⟨z, hz⟩ := hdisk.lookup_of_holder hu
  obtain ⟨hEz, rfl⟩ := hI.mem _ _ hz
  refine ⟨z, hz, ?_⟩
  by_cases he : z.id = y.id
  · exact Or.inl he
  · rcases (hF.key_eq_iff hEz hEy).1 (hdisk.own _ _ hu) with he' | ⟨hr, hk⟩
    · exact Or.inl he'
    · refine Or.inr ⟨hr, hk, ?_⟩
      rcases (rules fields).total he with hzy | hyz
      · exact (hF.beats_iff hEz hEy).1 hzy
      · exact absurd hyz hb

/-- What is recovered was inserted, and is not deleted. -/
theorem Trail.shuns (h : Trail x E fields b₀ b₁ b s) (hF : Fields E fields) (hA : Agree E) {id : Bytes32}
    {z : Event} (hz : (recover x s.store.files).byId.lookup id = some z) :
    E z ∧ id ∉ s.store.index.tombstones.ids := by
  obtain ⟨hI, hdisk⟩ := Store.shows_recover hF hA h.recsIn
  refine ⟨(hI.mem _ _ hz).1, fun hm => ?_⟩
  have hshun := h.snapshot.shuns h.sound ((h.shows.mem_buried id).2 hm)
  rw [← diskBoard_eq] at hshun
  exact hshun (hdisk.holder_of_lookup hz)

end

/-- A crash in any state of a run of inserts, deletion requests, eviction rounds, checkpoints
and restarts, also between the steps of a checkpoint.  A next process that has room for the
files has every event that was live, or a version that beats it; it has only events that
were inserted, and none whose tombstone was held. -/
theorem recovers_evicted (x : Ext) (as : List Turn) (hA : Agree (Inserted as))
    (hread : ∀ e, Inserted as e → e.Readable x) (hgo : ∀ t ∈ as, t.Proceeds) (s : Sys)
    (hrun : Machine.run (step x) Sys.init as = some s) (maxBytes : Usize)
    (hroom : Store.Roomy x maxBytes s.store.files) (es : List Event) :
    ∃ st, (Store.new s.store.files).loadFromDisk x maxBytes es = some st ∧
      (∀ id y, s.store.index.byId.lookup id = some y → ∃ z, st.index.byId.lookup z.id = some z ∧
        (z.id = id ∨ y.isReplaceable = true ∧ z.replacementKey = y.replacementKey ∧ z.Beats y)) ∧
      ∀ id z, st.index.byId.lookup id = some z → Inserted as z ∧ id ∉ s.store.index.tombstones.ids := by
  obtain ⟨fields, hF⟩ := Index.exists_fields hA
  obtain ⟨b₀, b₁, b, h⟩ := trail_run hF hA hread hgo hrun
  obtain ⟨st, hload, hindex⟩ := hroom.load es
  refine ⟨st, hload, fun id y hy => ?_, fun id z hz => ?_⟩
  · rw [hindex]
    exact h.covers hF hA hy
  · rw [hindex] at hz
    exact h.shuns hF hA hz

/-! ## Two relay lists -/

/-- A relay list, which is replaceable; no load looks at its signature. -/
def relayList (id : Bytes32) (createdAt : Nat) : Event :=
  Event.compact id (note 0).pubkey createdAt 10002 [] ['h', 'o'] 0

def newer : Event := relayList 2 1700000000

def older : Event := relayList 3 1600000000

def listsExt : Ext := Ext.known [] [newer, older]

/-- The newer list is evicted, since the process takes more than the limit, and the older
one is stored. -/
def evictedRun : List Turn := [.act (.insert newer), .evict 1000 1001 1000, .act (.insert older)]

theorem inserted_evictedRun {e : Event} (h : Inserted evictedRun e) : e = newer ∨ e = older := by
  have hcases : Turn.act (.insert e) = .act (.insert newer) ∨ Turn.act (.insert e) = .act (.insert older) := by
    simpa [Inserted, evictedRun] using h
  rcases hcases with he | he
  · cases he
    exact Or.inl rfl
  · cases he
    exact Or.inr rfl

theorem readable_lists {e : Event} (h : e = newer ∨ e = older) : e.Readable listsExt := by
  have hraw : newer.raw ≠ older.raw := by decide +kernel
  have hlen : e.raw.length = 348 := by
    rcases h with rfl | rfl
    · exact Event.length_compactJson ..
    · exact Event.length_compactJson ..
  have hline : Lines.OneLine e.raw := by
    rcases h with rfl | rfl
    · exact Lines.oneLine_of_printable (Event.printable_compactJson _ _ _ _ _ (Event.printable_of_all rfl)
        (Event.printable_of_all rfl))
    · exact Lines.oneLine_of_printable (Event.printable_compactJson _ _ _ _ _ (Event.printable_of_all rfl)
        (Event.printable_of_all rfl))
  refine ⟨⟨(fun hnil => by rw [hnil] at hlen; cases hlen), hline, fromJsonUnchecked_known ?_ fun a ha heq => ?_⟩,
      ?_⟩
  · rcases h with rfl | rfl <;> simp
  · have hcases : a = newer ∨ a = older := by simpa using ha
    rcases hcases with rfl | rfl <;> rcases h with rfl | rfl
    · rfl
    · exact absurd heq hraw
    · exact absurd heq.symm hraw
    · rfl
  · rw [hlen]
    decide

theorem diskRecs_lists : diskRecs listsExt
    ⟨none, none, some (Wal.encodeAll [.insert newer.raw, .insert older.raw])⟩ = [.put newer, .put older] := by
  have hnew := (readable_lists (Or.inl rfl)).recorded
  have hold := (readable_lists (Or.inr rfl)).recorded
  have hseg : segmentRecs listsExt (some (Wal.encodeAll [.insert newer.raw, .insert older.raw])) =
      [.put newer, .put older] := by
    rw [Store.segmentRecs_of_encodeAll rfl]
    · simp only [List.filterMap_cons, List.filterMap_nil, hnew.parseOp, hold.parseOp]
    · intro op hop
      have hcases : op = .insert newer.raw ∨ op = .insert older.raw := by simpa using hop
      rcases hcases with rfl | rfl
      · exact hnew.fits
      · exact hold.fits
  show [] ++ ([] ++ segmentRecs listsExt _) = _
  rw [hseg]
  rfl

/-- The older list is live at the crash; the load finds a version of it. -/
theorem recovers_evicted_lists :
    ∃ s, Machine.run (step listsExt) Sys.init evictedRun = some s ∧
      s.store.index.byId.lookup older.id = some older ∧ Store.Roomy listsExt 1000 s.store.files ∧
      ∃ st, (Store.new s.store.files).loadFromDisk listsExt 1000 [newer] = some st ∧
        (∃ z, st.index.byId.lookup z.id = some z ∧ (z.id = older.id ∨
          older.isReplaceable = true ∧ z.replacementKey = older.replacementKey ∧ z.Beats older)) ∧
        ∀ id z, st.index.byId.lookup id = some z → Inserted evictedRun z ∧ id ∉ s.store.index.tombstones.ids := by
  have hA : Agree (Inserted evictedRun) := by
    intro a b ha hb hid
    rcases inserted_evictedRun ha with rfl | rfl <;> rcases inserted_evictedRun hb with rfl | rfl
    · exact ⟨rfl, rfl, rfl, rfl, rfl⟩
    · exact absurd hid (by decide)
    · exact absurd hid (by decide)
    · exact ⟨rfl, rfl, rfl, rfl, rfl⟩
  have hgo : ∀ t ∈ evictedRun, t.Proceeds := by
    intro t ht
    have hcases : t = .act (.insert newer) ∨ t = .evict 1000 1001 1000 ∨ t = .act (.insert older) := by
      simpa [evictedRun] using ht
    rcases hcases with rfl | rfl | rfl <;> trivial
  have hrun : (Machine.run (step listsExt) Sys.init evictedRun).any (fun s =>
      decide (s.store.index.byId.lookup older.id = some older ∧
        s.store.files = ⟨none, none, some (Wal.encodeAll [.insert newer.raw, .insert older.raw])⟩)) = true := by
    decide +kernel
  obtain ⟨s, hs, hstate⟩ := Machine.exists_run _ _ _ _ hrun
  obtain ⟨hlive, hfiles⟩ := of_decide_eq_true hstate
  have hroom : Store.Roomy listsExt 1000 s.store.files := by
    refine Or.inr fun recs hpre => ?_
    rw [hfiles, diskRecs_lists] at hpre
    have hcases : recs ∈ ([.put newer, .put older] : List Rec).inits := (List.mem_inits _ _).2 hpre
    have hall : ∀ recs ∈ ([.put newer, .put older] : List Rec).inits,
        (recs.foldl Store.redo .new).memoryBytes ≤ (1000 * 90 / 100 : Usize) := by decide +kernel
    exact hall recs hcases
  obtain ⟨st, hload, hcov, hshun⟩ := recovers_evicted listsExt evictedRun hA
    (fun e he => readable_lists (inserted_evictedRun he)) hgo s hs 1000 hroom [newer]
  exact ⟨s, hs, hlive, hroom, st, hload, hcov _ _ hlive, hshun⟩

end Evicting
end Memlay

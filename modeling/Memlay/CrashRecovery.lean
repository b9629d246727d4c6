import Memlay.Checkpoint

/-!
# Crashes during recovery

`load_from_disk` removes the rotated segment before it has written the snapshot
that replaces it.  `LoadCut` lists the files after each of its file steps; a later
load finds those of the last step that was taken.

    chain_run     along every run, the records of the two segments are one history
                  that ends in the index, and a superseding snapshot is on its way
    survives      a later load recovers everything the first one would have, unless
                  the cut lies between the removal of `wal.log.old` and the rename of
                  the snapshot, `wal.log.old` is newer than `events.jsonl`, and it matters
-/

namespace Memlay

open Index (Shows Inv Agree Fields rules Slot)
open Registers (Board History Passes Sound)
open Store (Rec diskRecs segmentRecs snapshotRecs Whole recover)

/-! ## The file steps of `load_from_disk` -/

inductive LoadCut where
  | opened
  | removedOld
  | renamed
  | reopened
  | snapshot
  | done
deriving DecidableEq

/-- The files after a step of a load of `f`; `none`: the load does not get there,
since it had nothing to apply.  `es` is the order `iter_all` gives. -/
def LoadCut.files (x : Ext) (es : List Event) (f : Files) (cut : LoadCut) : Option Files :=
  match Store.replayFiles x 0 .new f.openWal with
  | none => none
  | some (applied, s) =>
    let st : Store := { Store.new f with index := s }
    match cut with
    | .opened => some st.files
    | .removedOld => some st.removeOld.files
    | cut =>
      if applied = 0 then none
      else st.removeOld.renameWal.map fun st =>
        match cut with
        | .renamed => st.files
        | .reopened => st.openWal.files
        | .snapshot => (st.openWal.putSnapshot es).files
        | _ => (st.openWal.putSnapshot es).removeOld.files

/-- The rotated segment is gone and nothing replaces it yet. -/
def LoadCut.Exposed (cut : LoadCut) : Prop := cut = .removedOld ∨ cut = .renamed ∨ cut = .reopened

/-- A load of `f'` recovers every event that a load of `f` recovers. -/
def Survives (x : Ext) (f f' : Files) : Prop :=
  ∃ n s n' s', Store.replayFiles x 0 .new f.openWal = some (n, s) ∧
    Store.replayFiles x 0 .new f'.openWal = some (n', s') ∧
    ∀ id y, s.byId.lookup id = some y → ∃ z, s'.byId.lookup id = some z

/-- Replaying the rotated segment over the snapshot changes no live event. -/
def OldIsIdle (x : Ext) (f : Files) : Prop :=
  ∀ id, (∃ y, (recover x ⟨f.events, f.walOld, none⟩).byId.lookup id = some y) ↔
    ∃ y, (recover x ⟨f.events, none, none⟩).byId.lookup id = some y

/-! ## The board of the files -/

section
variable {x : Ext} {E : Event → Prop} {fields : Bytes32 → Event} {f : Files}

/-- The records of a segment, as the board has them. -/
def onBoard (x : Ext) (segment : Option Bytes) : List (Registers.Rec Bytes32) :=
  (segmentRecs x segment).map Rec.onBoard

/-- The slots a load has filled after the events in this order. -/
noncomputable def holderOf (fields : Bytes32 → Event) (es : List Event) : Slot → Option Bytes32 :=
  (Registers.replay (rules fields) Registers.empty ((es.map Event.id).map .put)).holder

theorem diskBoard_eq (fields : Bytes32 → Event) (x : Ext) (f : Files) :
    Store.diskBoard fields x f =
      Registers.replay (rules fields) (Registers.fresh (holderOf fields (snapshotRecs x f.events)))
        (onBoard x f.walOld ++ onBoard x f.wal) := by
  have hfresh : Registers.replay (rules fields) Registers.empty
      (((snapshotRecs x f.events).map Event.id).map .put) =
      Registers.fresh (holderOf fields (snapshotRecs x f.events)) := by
    have hb := Registers.replay_puts_buried (r := rules fields)
      ((snapshotRecs x f.events).map Event.id) Registers.empty
    unfold holderOf Registers.fresh
    rw [show ([] : List Bytes32) = (Registers.empty : Board Bytes32 Slot).buried from rfl, ← hb]
  unfold Store.diskBoard diskRecs onBoard
  rw [List.map_append, List.map_append, Registers.replay_append, ← hfresh]
  simp only [List.map_map, Function.comp_def, Rec.onBoard]

/-- The live events of an index fill its own slots, in any order. -/
theorem holderOf_perm (hF : Fields E fields) (hA : Agree E) {s : Index} {b : Board Bytes32 Slot}
    (hI : Inv E s) (hs : Shows fields s b) {es : List Event} (hp : es.Perm s.iterAll) :
    holderOf fields es = b.holder := by
  have hE : ∀ e ∈ es, E e ∧ s.byId.lookup e.id = some e := by
    intro e he
    obtain ⟨id, hid⟩ := Table.mem_values_iff.1 (hp.subset he)
    obtain ⟨hEe, rfl⟩ := hI.mem id e hid
    exact ⟨hEe, hid⟩
  have hin : ∀ a ∈ es.map Rec.put, a.In E := by
    intro a ha
    obtain ⟨e, he, rfl⟩ := List.mem_map.1 ha
    exact (hE e he).1
  have hshow := (Store.shows_foldl hF hA hin (Index.inv_new E) Index.shows_new).2
  have hboard : (es.map Rec.put).map Rec.onBoard = (es.map Event.id).map .put := by
    simp only [List.map_map]
    rfl
  have hfold : (es.map Rec.put).foldl Store.redo .new = es.foldl (fun s e => (Index.insert s e).2) .new := by
    rw [List.foldl_map]
    rfl
  rw [hboard, hfold] at hshow
  have hholds := (Store.separate_of_perm hI hp).holds_foldl
  refine Store.holder_eq_of_live hshow hs fun id => ?_
  constructor
  · rintro ⟨y, hy⟩
    obtain ⟨hm, rfl⟩ := (hholds id y).1 hy
    exact ⟨y, (hE y hm).2⟩
  · rintro ⟨y, hy⟩
    exact ⟨y, (hholds id y).2 ⟨hp.symm.subset (Table.mem_values_iff.2 ⟨id, hy⟩), (hI.mem id y hy).2⟩⟩

/-! ## The invariant of runs -/

/-- The segments hold one history: from `b₀` to `b₁` in `wal.log.old`, on to the
index's own board `b` in `wal.log`. -/
structure Chain (x : Ext) (E : Event → Prop) (fields : Bytes32 → Event)
    (b₀ b₁ b : Board Bytes32 Slot) (s : Sys) : Prop where
  wholeOld : Whole s.store.files.walOld
  wholeWal : Whole s.store.files.wal
  recsIn : ∀ a ∈ diskRecs x s.store.files, a.In E
  inv : Inv E s.store.index
  shows : Shows fields s.store.index b
  sound : Sound (rules fields) b₀
  old : History (rules fields) b₀ (onBoard x s.store.files.walOld) b₁
  wal : History (rules fields) b₁ (onBoard x s.store.files.wal) b
  /-- a handle left behind by a failed rotation has no new segment -/
  stuck : s.store.handle = .old → s.store.files.wal = none ∧ s.superseded = false ∧
    (s.phase = .idle ∨ s.phase = .renamed)
  superseded : s.superseded = true → Passes (rules fields) b₁ (onBoard x s.store.files.wal) b
    (holderOf fields (snapshotRecs x s.store.files.events))
  collected : ∀ es, s.phase = .collected es → (∀ e ∈ es, E e) ∧
    Passes (rules fields) b₁ (onBoard x s.store.files.wal) b (holderOf fields es)

variable {b₀ b₁ b : Board Bytes32 Slot} {s s' : Sys}

theorem mem_diskRecs {f : Files} {a : Rec} : a ∈ diskRecs x f ↔
    a ∈ (snapshotRecs x f.events).map Rec.put ∨ a ∈ segmentRecs x f.walOld ∨
      a ∈ segmentRecs x f.wal := by
  unfold diskRecs
  rw [List.mem_append, List.mem_append]

/-- Operations extend the history in the file behind the handle. -/
theorem Chain.logs (h : Chain x E fields b₀ b₁ b s) {st' : Store} {b' : Board Bytes32 Slot}
    (hl : Store.Logs x E fields s.store b st' b') :
    ∃ b₁', Chain x E fields b₀ b₁' b' { s with store := st' } := by
  obtain ⟨recs, happ, hin, hhist⟩ := hl.recs
  have hrecsIn : ∀ a ∈ diskRecs x st'.files, a.In E := by
    intro a ha
    rcases happ.mem_diskRecs.1 ha with ha | ha
    · exact h.recsIn a ha
    · exact hin a ha
  cases hh : s.store.handle with
  | wal =>
    obtain ⟨hold, hwal⟩ := happ.onWal hh
    have hwal' : onBoard x st'.files.wal = onBoard x s.store.files.wal ++ recs.map Rec.onBoard := by
      unfold onBoard
      rw [hwal, List.map_append]
    refine ⟨b₁, happ.wholeOld, happ.wholeWal, hrecsIn, hl.inv, hl.shows, h.sound, ?_, ?_, ?_, ?_, ?_⟩
    · show History _ _ (onBoard x st'.files.walOld) _
      rw [hold]
      exact h.old
    · show History _ _ (onBoard x st'.files.wal) _
      rw [hwal']
      exact h.wal.trans hhist
    · intro hh'
      rw [happ.handle, hh] at hh'
      cases hh'
    · intro hsup
      show Passes _ _ (onBoard x st'.files.wal) _ (holderOf fields (snapshotRecs x st'.files.events))
      rw [hwal', happ.events]
      exact (h.superseded hsup).append hhist
    · intro es hes
      obtain ⟨h1, h2⟩ := h.collected es hes
      refine ⟨h1, ?_⟩
      show Passes _ _ (onBoard x st'.files.wal) _ _
      rw [hwal']
      exact h2.append hhist
  | old =>
    obtain ⟨hwal, hold⟩ := happ.onOld hh
    obtain ⟨hnone, hsup, hphase⟩ := h.stuck hh
    have hb : b = b₁ := by
      have := h.wal
      rw [hnone] at this
      exact this.eq_of_nil rfl
    have hold' : onBoard x st'.files.walOld =
        onBoard x s.store.files.walOld ++ recs.map Rec.onBoard := by
      unfold onBoard
      rw [hold, List.map_append]
    refine ⟨b', happ.wholeOld, happ.wholeWal, hrecsIn, hl.inv, hl.shows, h.sound, ?_, ?_, ?_, ?_, ?_⟩
    · show History _ _ (onBoard x st'.files.walOld) _
      rw [hold']
      exact h.old.trans (hb ▸ hhist)
    · show History _ _ (onBoard x st'.files.wal) _
      rw [hwal, hnone]
      exact .nil b'
    · exact fun _ => ⟨hwal.trans hnone, hsup, hphase⟩
    · intro hsup'
      rw [show ({ s with store := st' } : Sys).superseded = s.superseded from rfl, hsup] at hsup'
      cases hsup'
    · intro es hes
      rcases hphase with hp | hp
      · rw [show ({ s with store := st' } : Sys).phase = s.phase from rfl, hp] at hes
        cases hes
      · rw [show ({ s with store := st' } : Sys).phase = s.phase from rfl, hp] at hes
        cases hes

theorem Chain.rename (h : Chain x E fields b₀ b₁ b s) (hstep : Sys.step x s .rename = some s') :
    Chain x E fields b₁ b b s' := by
  obtain ⟨-, segment, hwal, rfl⟩ := Sys.step_rename hstep
  have hwhole := h.wholeWal
  have hhist := h.wal
  rw [hwal] at hwhole hhist
  refine ⟨hwhole, Store.whole_none, fun a ha => h.recsIn a ?_, h.inv, h.shows, h.old.sound h.sound,
    hhist, .nil b, fun _ => ⟨rfl, rfl, Or.inr rfl⟩, (fun hs => by cases hs),
    fun es hes => by cases hes⟩
  rw [mem_diskRecs] at ha ⊢
  rcases ha with ha | ha | ha
  · exact Or.inl ha
  · exact Or.inr (Or.inr (by rw [hwal]; exact ha))
  · exact absurd ha List.not_mem_nil

theorem Chain.reopen (h : Chain x E fields b₀ b₁ b s) (hstep : Sys.step x s .reopen = some s') :
    Chain x E fields b₀ b₁ b s' := by
  obtain ⟨-, rfl⟩ := Sys.step_reopen hstep
  have hwal : onBoard x s.store.openWal.files.wal = onBoard x s.store.files.wal := by
    unfold onBoard
    show (segmentRecs x (some (s.store.files.wal.getD []))).map _ = _
    rw [Store.segmentRecs_getD]
  refine ⟨h.wholeOld, h.wholeWal, fun a ha => h.recsIn a ?_, h.inv, h.shows, h.sound, h.old,
    hwal ▸ h.wal, (fun hh => by cases hh), fun hs => hwal ▸ h.superseded hs, fun es hes => by cases hes⟩
  rw [← Store.diskRecs_openWal]
  exact ha

theorem Chain.collect (h : Chain x E fields b₀ b₁ b s) (hF : Fields E fields) (hA : Agree E)
    {es : List Event} (hstep : Sys.step x s (.collect es) = some s') :
    Chain x E fields b₀ b₁ b s' := by
  obtain ⟨hrot, hperm, rfl⟩ := Sys.step_collect hstep
  refine ⟨h.wholeOld, h.wholeWal, h.recsIn, h.inv, h.shows, h.sound, h.old, h.wal, fun hh => ?_,
    h.superseded, fun es' hes => ?_⟩
  · rcases (h.stuck hh).2.2 with hp | hp
    · rw [hrot] at hp
      cases hp
    · rw [hrot] at hp
      cases hp
  · cases hes
    refine ⟨fun e he => ?_, ?_⟩
    · obtain ⟨id, hid⟩ := Table.mem_values_iff.1 (hperm.subset he)
      exact (h.inv.mem id e hid).1
    · rw [holderOf_perm hF hA h.inv h.shows hperm]
      exact h.wal.passes_last

theorem Chain.renameSnapshot (h : Chain x E fields b₀ b₁ b s) (hread : ∀ e, E e → e.Readable x)
    (hstep : Sys.step x s .renameSnapshot = some s') : Chain x E fields b₀ b₁ b s' := by
  obtain ⟨es, hes, rfl⟩ := Sys.step_renameSnapshot hstep
  obtain ⟨hE, hpass⟩ := h.collected es hes
  have hsnap : snapshotRecs x (some (writeSnapshot es)) = es :=
    Store.snapshotRecs_writeSnapshot fun e he => hread e (hE e he)
  refine ⟨h.wholeOld, h.wholeWal, fun a ha => ?_, h.inv, h.shows, h.sound, h.old, h.wal, fun hh => ?_,
    fun _ => ?_, fun es' hes' => by cases hes'⟩
  · rcases mem_diskRecs.1 ha with ha | ha
    · have ha' : a ∈ (snapshotRecs x (some (writeSnapshot es))).map Rec.put := ha
      rw [hsnap] at ha'
      obtain ⟨e, he, rfl⟩ := List.mem_map.1 ha'
      exact hE e he
    · exact h.recsIn a (mem_diskRecs.2 (Or.inr ha))
  · rcases (h.stuck hh).2.2 with hp | hp
    · rw [hes] at hp
      cases hp
    · rw [hes] at hp
      cases hp
  · show Passes _ _ _ _ (holderOf fields (snapshotRecs x (some (writeSnapshot es))))
    rw [hsnap]
    exact hpass

theorem Chain.removeOld (h : Chain x E fields b₀ b₁ b s) {ok : Bool}
    (hstep : Sys.step x s (.removeOld ok) = some s') : ∃ b₀', Chain x E fields b₀' b₁ b s' := by
  obtain ⟨hw, rfl⟩ := Sys.step_removeOld hstep
  have hhandle : s.store.handle ≠ .old := by
    intro hh
    rcases (h.stuck hh).2.2 with hp | hp
    · rw [hw] at hp
      cases hp
    · rw [hw] at hp
      cases hp
  cases ok with
  | false =>
    exact ⟨b₀, h.wholeOld, h.wholeWal, h.recsIn, h.inv, h.shows, h.sound, h.old, h.wal,
      fun hh => absurd hh hhandle, h.superseded, fun es hes => by cases hes⟩
  | true =>
    refine ⟨b₁, Store.whole_none, h.wholeWal, fun a ha => h.recsIn a ?_, h.inv, h.shows,
      h.old.sound h.sound, .nil b₁, h.wal, fun hh => absurd hh hhandle, h.superseded,
      fun es hes => by cases hes⟩
    rw [mem_diskRecs] at ha ⊢
    rcases ha with ha | ha | ha
    · exact Or.inl ha
    · exact absurd ha List.not_mem_nil
    · exact Or.inr (Or.inr ha)

theorem Chain.giveUp (h : Chain x E fields b₀ b₁ b s) (hstep : Sys.step x s .giveUp = some s') :
    Chain x E fields b₀ b₁ b s' := by
  obtain rfl := Sys.step_giveUp hstep
  exact ⟨h.wholeOld, h.wholeWal, h.recsIn, h.inv, h.shows, h.sound, h.old, h.wal,
      fun hh => ⟨(h.stuck hh).1, (h.stuck hh).2.1, Or.inl rfl⟩, h.superseded, fun es hes => by cases hes⟩

/-! ## Restarts -/

theorem Chain.restart (h : Chain x E fields b₀ b₁ b s) (hF : Fields E fields) (hA : Agree E)
    (hread : ∀ e, E e → e.Readable x) {es : List Event}
    (hstep : Sys.step x s (.restart es) = some s') :
    ∃ c, Chain x E fields c c c s' := by
  simp only [Sys.step, Store.loadFromDisk_new] at hstep
  split at hstep
  · rename_i hperm
    obtain ⟨hI, hs⟩ := Store.shows_recover hF hA h.recsIn
    have hsound : Sound (rules fields) (Store.diskBoard fields x s.store.files) :=
      Registers.sound_empty.replay _
    rw [show (Store.new s.store.files).files = s.store.files.openWal from rfl,
      Store.recover_openWal] at hperm
    rw [Option.map_some] at hstep
    cases hstep
    refine ⟨Store.diskBoard fields x s.store.files, ?_⟩
    by_cases hn : 0 < (diskRecs x s.store.files).length
    · rw [if_pos hn]
      have hE : ∀ e ∈ es, E e := by
        intro e he
        obtain ⟨id, hid⟩ := Table.mem_values_iff.1 (hperm.subset he)
        exact (hI.mem id e hid).1
      have hsnap : snapshotRecs x (some (writeSnapshot es)) = es :=
        Store.snapshotRecs_writeSnapshot fun e he => hread e (hE e he)
      refine ⟨Store.whole_none, Store.whole_nil, fun a ha => ?_, hI, hs, hsound, .nil _, .nil _,
        (fun hh => by cases hh), fun _ => ?_, fun es' hes => by cases hes⟩
      · rcases mem_diskRecs.1 ha with ha | ha | ha
        · have ha' : a ∈ (snapshotRecs x (some (writeSnapshot es))).map Rec.put := ha
          rw [hsnap] at ha'
          obtain ⟨e, he, rfl⟩ := List.mem_map.1 ha'
          exact hE e he
        · exact absurd ha List.not_mem_nil
        · exact absurd ha List.not_mem_nil
      · show Passes _ _ _ _ (holderOf fields (snapshotRecs x (some (writeSnapshot es))))
        rw [hsnap, holderOf_perm hF hA hI hs hperm]
        exact (History.nil _).passes_last
    · rw [if_neg hn]
      -- nothing was applied: the files are without records
      have hnil : diskRecs x s.store.files = [] := List.length_eq_zero_iff.1 (by omega)
      obtain ⟨hsnap, hsegs⟩ := List.append_eq_nil_iff.1 hnil
      obtain ⟨-, hwal⟩ := List.append_eq_nil_iff.1 hsegs
      have hwal' : onBoard x s.store.files.openWal.wal = [] := by
        unfold onBoard
        show (segmentRecs x (some (s.store.files.wal.getD []))).map _ = []
        rw [Store.segmentRecs_getD, hwal]
        rfl
      have hboard : Store.diskBoard fields x s.store.files = Registers.empty := by
        unfold Store.diskBoard
        rw [hnil]
        rfl
      refine ⟨Store.whole_none, h.wholeWal, fun a ha => h.recsIn a ?_, hI, hs, hsound, .nil _, ?_,
        (fun hh => by cases hh), fun _ => ?_, fun es' hes => by cases hes⟩
      · rw [mem_diskRecs] at ha ⊢
        rcases ha with ha | ha | ha
        · exact Or.inl ha
        · exact absurd ha List.not_mem_nil
        · refine Or.inr (Or.inr ?_)
          rw [← Store.segmentRecs_getD]
          exact ha
      · show History _ _ (onBoard x s.store.files.openWal.wal) _
        rw [hwal']
        exact .nil _
      · show Passes _ _ (onBoard x s.store.files.openWal.wal) _
          (holderOf fields (snapshotRecs x s.store.files.events))
        rw [hwal', List.map_eq_nil_iff.1 hsnap, hboard]
        exact (History.nil _).passes_last
  · cases hstep

/-! ## Runs -/

theorem Chain.step (h : Chain x E fields b₀ b₁ b s) (hF : Fields E fields) (hA : Agree E)
    (hread : ∀ e, E e → e.Readable x) {a : Action} (hins : ∀ e, a = .insert e → E e)
    (hstep : Sys.step x s a = some s') : ∃ c₀ c₁ c, Chain x E fields c₀ c₁ c s' := by
  cases a with
  | insert e =>
    obtain ⟨-, rfl⟩ := Sys.step_insert hstep
    have hE := hins e rfl
    obtain ⟨b', hl⟩ := Store.logs_insert hF hA h.inv h.shows h.wholeOld h.wholeWal hE (hread e hE)
    obtain ⟨c₁, hc⟩ := h.logs hl
    exact ⟨_, _, _, hc⟩
  | deletion ids coordinates author until_ =>
    obtain ⟨-, rfl⟩ := Sys.step_deletion hstep
    obtain ⟨b', hl⟩ := Store.logs_applyDeletion h.inv h.shows h.wholeOld h.wholeWal ids coordinates
      author until_
    obtain ⟨c₁, hc⟩ := h.logs hl
    exact ⟨_, _, _, hc⟩
  | rename => exact ⟨_, _, _, h.rename hstep⟩
  | reopen => exact ⟨_, _, _, h.reopen hstep⟩
  | collect es => exact ⟨_, _, _, h.collect hF hA hstep⟩
  | renameSnapshot => exact ⟨_, _, _, h.renameSnapshot hread hstep⟩
  | removeOld ok =>
    obtain ⟨c₀, hc⟩ := h.removeOld hstep
    exact ⟨_, _, _, hc⟩
  | giveUp => exact ⟨_, _, _, h.giveUp hstep⟩
  | restart es =>
    obtain ⟨c, hc⟩ := h.restart hF hA hread hstep
    exact ⟨_, _, _, hc⟩

theorem chain_init : Chain x E fields Registers.empty Registers.empty Registers.empty Sys.init where
  wholeOld := Store.whole_none
  wholeWal := Store.whole_nil
  recsIn := fun a ha => absurd ha List.not_mem_nil
  inv := Index.inv_new E
  shows := Index.shows_new
  sound := Registers.sound_empty
  old := .nil _
  wal := .nil _
  stuck := fun hh => by cases hh
  superseded := fun _ => (History.nil _).passes_last
  collected := fun es hes => by cases hes

/-- The run lemma. -/
theorem chain_run {as : List Action} (hF : Fields (Sys.Inserted as) fields)
    (hA : Agree (Sys.Inserted as)) (hread : ∀ e, Sys.Inserted as e → e.Readable x)
    (hrun : Machine.run (Sys.step x) Sys.init as = some s) :
    ∃ b₀ b₁ b, Chain x (Sys.Inserted as) fields b₀ b₁ b s := by
  refine Machine.run_invariant (C := fun _ a => a ∈ as)
    (I := fun u => ∃ b₀ b₁ b, Chain x (Sys.Inserted as) fields b₀ b₁ b u) ?_ as Sys.init s hrun
    (Machine.along_of_forall as Sys.init fun a ha _ => ha) ⟨_, _, _, chain_init⟩
  rintro u a u' hstep hmem ⟨c₀, c₁, c, hc⟩
  exact hc.step hF hA hread (fun e he => by rw [he] at hmem; exact hmem) hstep

/-! ## Cuts -/

/-- The files a cut leaves, by the records they hold. -/
theorem LoadCut.files_eq {es : List Event} {f' : Files} {cut : LoadCut}
    (h : cut.files x es f = some f') :
    f' = f.openWal ∨
    (cut.Exposed ∧ f'.events = f.events ∧
      segmentRecs x f'.walOld ++ segmentRecs x f'.wal = segmentRecs x f.wal) ∨
    (f'.events = some (writeSnapshot es) ∧
      (segmentRecs x f'.walOld ++ segmentRecs x f'.wal = segmentRecs x f.wal ∨
        segmentRecs x f'.walOld ++ segmentRecs x f'.wal = [])) := by
  have hopen : segmentRecs x (some (f.wal.getD [])) = segmentRecs x f.wal := Store.segmentRecs_getD x f.wal
  unfold LoadCut.files at h
  rw [Store.replayFiles_zero] at h
  have hlate : ∀ {g : Store → Files}, (if (diskRecs x f.openWal).length = 0 then none
      else ((({ Store.new f with index := recover x f.openWal } : Store).removeOld).renameWal.map g)) =
        some f' → f' = g ⟨recover x f.openWal, ⟨f.events, some (f.wal.getD []), none⟩, .old⟩ := by
    intro g hg
    split at hg
    · cases hg
    · exact (Option.some.inj hg).symm
  cases cut with
  | opened =>
    cases h
    exact Or.inl rfl
  | removedOld =>
    cases h
    exact Or.inr (Or.inl ⟨Or.inl rfl, rfl, hopen⟩)
  | renamed =>
    rw [hlate h]
    refine Or.inr (Or.inl ⟨Or.inr (Or.inl rfl), rfl, ?_⟩)
    show segmentRecs x (some (f.wal.getD [])) ++ [] = _
    rw [List.append_nil, hopen]
  | reopened =>
    rw [hlate h]
    refine Or.inr (Or.inl ⟨Or.inr (Or.inr rfl), rfl, ?_⟩)
    show segmentRecs x (some (f.wal.getD [])) ++ [] = _
    rw [List.append_nil, hopen]
  | snapshot =>
    rw [hlate h]
    refine Or.inr (Or.inr ⟨rfl, Or.inl ?_⟩)
    show segmentRecs x (some (f.wal.getD [])) ++ [] = _
    rw [List.append_nil, hopen]
  | done =>
    rw [hlate h]
    exact Or.inr (Or.inr ⟨rfl, Or.inr rfl⟩)

/-- Files with the same board recover the same events. -/
theorem survives_of_holder (hF : Fields E fields) (hA : Agree E) {f' : Files}
    (hin : ∀ a ∈ diskRecs x f, a.In E) (hin' : ∀ a ∈ diskRecs x f', a.In E)
    (h : (Store.diskBoard fields x f').holder = (Store.diskBoard fields x f).holder) :
    Survives x f f' := by
  refine ⟨_, _, _, _, Store.replayFiles_zero x f.openWal, Store.replayFiles_zero x f'.openWal, ?_⟩
  rw [Store.recover_openWal, Store.recover_openWal]
  intro id y hy
  refine ((Store.shows_recover hF hA hin').2.live id).2 ?_
  rw [h]
  exact (Store.shows_recover hF hA hin).2.holder_of_lookup hy

/-- The board of an exposed cut: the snapshot and `wal.log` alone. -/
theorem Chain.exposed_holder (h : Chain x E fields b₀ b₁ b s) (hF : Fields E fields) (hA : Agree E)
    (hcond : s.superseded = true ∨ OldIsIdle x s.store.files) :
    (Registers.replay (rules fields)
      (Registers.fresh (holderOf fields (snapshotRecs x s.store.files.events)))
      (onBoard x s.store.files.wal)).holder = (Store.diskBoard fields x s.store.files).holder := by
  rw [diskBoard_eq]
  rcases hcond with hsup | hidle
  · -- both replays end in the index's own board
    have hpass := h.superseded hsup
    rw [Registers.replay_snapshot (h.old.sound h.sound) hpass,
      Registers.replay_snapshot h.sound (hpass.prepend h.old)]
  · have hforget := h.old.follow h.sound
      (Registers.forgets_fresh (holderOf fields (snapshotRecs x s.store.files.events)) b₀)
    have hsame : (Registers.replay (rules fields)
        (Registers.fresh (holderOf fields (snapshotRecs x s.store.files.events)))
        (onBoard x s.store.files.walOld)).holder =
        holderOf fields (snapshotRecs x s.store.files.events) := by
      have h1 : ∀ a ∈ diskRecs x ⟨s.store.files.events, s.store.files.walOld, none⟩, a.In E := by
        intro a ha
        refine h.recsIn a (mem_diskRecs.2 ?_)
        rcases mem_diskRecs.1 ha with ha | ha | ha
        · exact Or.inl ha
        · exact Or.inr (Or.inl ha)
        · exact absurd ha List.not_mem_nil
      have h2 : ∀ a ∈ diskRecs x ⟨s.store.files.events, none, none⟩, a.In E := by
        intro a ha
        refine h.recsIn a (mem_diskRecs.2 ?_)
        rcases mem_diskRecs.1 ha with ha | ha | ha
        · exact Or.inl ha
        · exact absurd ha List.not_mem_nil
        · exact absurd ha List.not_mem_nil
      have := Store.holder_eq_of_live (Store.shows_recover hF hA h1).2 (Store.shows_recover hF hA h2).2 hidle
      rw [diskBoard_eq, diskBoard_eq] at this
      simpa [onBoard, Store.segmentRecs_none, Registers.replay, Registers.fresh] using this
    rw [Registers.replay_append]
    funext k
    refine h.wal.agree (h.old.sound h.sound) (Registers.forgets_fresh _ b₁) hforget.forgets ?_
    rw [hsame]
    rfl

/-- A load that is cut, or whose checkpoint fails, after any file step: the next
one recovers all that this one would have, when the cut is not between the removal
of `wal.log.old` and the new snapshot, or the snapshot on disk is newer than
`wal.log.old`, or `wal.log.old` changes nothing. -/
theorem survives {as : List Action} {x : Ext} {s : Sys}
    (hrun : Machine.run (Sys.step x) Sys.init as = some s) (hA : Agree (Sys.Inserted as))
    (hread : ∀ e, Sys.Inserted as e → e.Readable x) {es : List Event} {cut : LoadCut} {f' : Files}
    (hes : es.Perm (recover x s.store.files).iterAll)
    (hcut : cut.files x es s.store.files = some f')
    (hcond : cut.Exposed → s.superseded = true ∨ OldIsIdle x s.store.files) :
    Survives x s.store.files f' := by
  obtain ⟨fields, hF⟩ := Index.exists_fields hA
  obtain ⟨b₀, b₁, b, h⟩ := chain_run hF hA hread hrun
  obtain ⟨hI, hs⟩ := Store.shows_recover hF hA h.recsIn
  have hwalIn : ∀ {recs : List Rec}, recs = segmentRecs x s.store.files.wal ∨ recs = [] →
      ∀ a ∈ recs, a.In (Sys.Inserted as) := by
    rintro recs (rfl | rfl) a ha
    · exact h.recsIn a (mem_diskRecs.2 (Or.inr (Or.inr ha)))
    · exact absurd ha List.not_mem_nil
  rcases LoadCut.files_eq hcut with rfl | ⟨hexp, hev, hrecs⟩ | ⟨hev, hrecs⟩
  · refine survives_of_holder hF hA h.recsIn (fun a ha => h.recsIn a ?_) ?_
    · rwa [Store.diskRecs_openWal] at ha
    · unfold Store.diskBoard
      rw [Store.diskRecs_openWal]
  · refine survives_of_holder hF hA h.recsIn (fun a ha => ?_) ?_
    · unfold diskRecs at ha
      rw [hrecs, hev] at ha
      rcases List.mem_append.1 ha with ha | ha
      · exact h.recsIn a (mem_diskRecs.2 (Or.inl ha))
      · exact hwalIn (Or.inl rfl) a ha
    · rw [diskBoard_eq, hev]
      unfold onBoard
      rw [← List.map_append, hrecs]
      exact h.exposed_holder hF hA (hcond hexp)
  · have hE : ∀ e ∈ es, Sys.Inserted as e := by
      intro e he
      obtain ⟨id, hid⟩ := Table.mem_values_iff.1 (hes.subset he)
      exact (hI.mem id e hid).1
    have hsnap : snapshotRecs x f'.events = es := by
      rw [hev]
      exact Store.snapshotRecs_writeSnapshot fun e he => hread e (hE e he)
    refine survives_of_holder hF hA h.recsIn (fun a ha => ?_) ?_
    · unfold diskRecs at ha
      rw [hsnap] at ha
      rcases List.mem_append.1 ha with ha | ha
      · obtain ⟨e, he, rfl⟩ := List.mem_map.1 ha
        exact hE e he
      · exact hwalIn hrecs a ha
    · rw [diskBoard_eq, hsnap, holderOf_perm hF hA hI hs hes]
      unfold onBoard
      rw [← List.map_append]
      rcases hrecs with hrecs | hrecs
      · -- the log over the recovered events is a second replay of it
        rw [hrecs, diskBoard_eq, Registers.replay_append]
        exact h.wal.replay_twice (h.old.sound h.sound) (h.old.follow h.sound
          (Registers.forgets_fresh _ b₀)).forgets
      · rw [hrecs]
        rfl

end

/-! ## One note, and a checkpoint that is cut -/

/-- A checkpoint cut behind its rotation: the note is in `wal.log.old` only. -/
def cutRotation : List Action := [.insert (note 0), .rename, .reopen]

/-- A checkpoint cut behind the rename of its snapshot. -/
def cutRemoval : List Action := cutRotation ++ [.collect [note 0], .renameSnapshot]

theorem inserted_cut {e : Event} (h : Sys.Inserted cutRotation e ∨ Sys.Inserted cutRemoval e) :
    e = note 0 := by
  simpa [Sys.Inserted, cutRotation, cutRemoval] using h

theorem run_cutRotation : Machine.run (Sys.step noteExt) Sys.init cutRotation =
    some ⟨⟨(Index.new.insert (note 0)).2, ⟨none, noteSegment, some []⟩, .wal⟩, .rotated, false⟩ := rfl

/-- A snapshot of what is live, written and renamed. -/
theorem run_snapshot (x : Ext) (st : Store) {es : List Event} (h : st.index.iterAll = es) :
    Machine.run (Sys.step x) ⟨st, .rotated, false⟩ [.collect es, .renameSnapshot] =
      some ⟨st.putSnapshot es, .written, true⟩ := by
  have hcollect : Sys.step x ⟨st, .rotated, false⟩ (.collect es) = some ⟨st, .collected es, false⟩ := by
    simp only [Sys.step, h, List.Perm.refl, and_self, if_true]
  exact (Machine.run_cons_eq_some _).2 ⟨_, hcollect, rfl⟩

theorem files_removedOld (x : Ext) (es : List Event) (f : Files) :
    LoadCut.removedOld.files x es f = some { f.openWal with walOld := none } := by
  unfold LoadCut.files
  rw [Store.replayFiles_zero]
  rfl

theorem survives_cutRemoval :
    ∃ s f', Machine.run (Sys.step noteExt) Sys.init cutRemoval = some s ∧
      LoadCut.removedOld.files noteExt [note 0] s.store.files = some f' ∧
      Survives noteExt s.store.files f' := by
  have hrun : Machine.run (Sys.step noteExt) Sys.init cutRemoval =
      some ⟨⟨(Index.new.insert (note 0)).2,
        ⟨some (writeSnapshot [note 0]), noteSegment, some []⟩, .wal⟩, .written, true⟩ := by
    have hlive : (Index.new.insert (note 0)).2.iterAll = [note 0] := rfl
    rw [cutRemoval, Machine.run_append, run_cutRotation, Option.bind_some]
    exact run_snapshot noteExt ⟨(Index.new.insert (note 0)).2, ⟨none, noteSegment, some []⟩, .wal⟩ hlive
  have hsnap : snapshotRecs noteExt (some (writeSnapshot [note 0])) = [note 0] := by
    refine Store.snapshotRecs_writeSnapshot fun e he => ?_
    rw [List.mem_singleton.1 he]
    exact note_readable
  have hrecs : diskRecs noteExt ⟨some (writeSnapshot [note 0]), noteSegment, some []⟩ =
      [.put (note 0), .put (note 0)] := by
    unfold diskRecs
    rw [hsnap, segmentRecs_noteSegment]
    rfl
  have hlive : (recover noteExt ⟨some (writeSnapshot [note 0]), noteSegment, some []⟩).iterAll =
      [note 0] := by
    unfold recover
    rw [hrecs]
    rfl
  have hcut : LoadCut.removedOld.files noteExt [note 0]
      ⟨some (writeSnapshot [note 0]), noteSegment, some []⟩ =
      some ⟨some (writeSnapshot [note 0]), none, some []⟩ := files_removedOld _ _ _
  refine ⟨_, _, hrun, hcut, survives hrun (fun a b ha hb _ => ?_) (fun e he => ?_) ?_ hcut
    fun _ => Or.inl rfl⟩
  · rw [inserted_cut (Or.inr ha), inserted_cut (Or.inr hb)]
    exact note_sameFields 0 0
  · rw [inserted_cut (Or.inr he)]
    exact note_readable
  · rw [hlive]

/-- The load removes the note's only record before it has written its snapshot. -/
theorem cutRotation_loses :
    ∃ s f', Machine.run (Sys.step noteExt) Sys.init cutRotation = some s ∧
      (∀ e, Sys.Inserted cutRotation e → e.Readable noteExt) ∧
      LoadCut.removedOld.files noteExt [note 0] s.store.files = some f' ∧
      ¬ Survives noteExt s.store.files f' := by
  have hrecs : diskRecs noteExt ⟨none, noteSegment, some []⟩ = [.put (note 0)] := by
    unfold diskRecs
    rw [segmentRecs_noteSegment]
    rfl
  have hcut : LoadCut.removedOld.files noteExt [note 0] ⟨none, noteSegment, some []⟩ =
      some ⟨none, none, some []⟩ := files_removedOld _ _ _
  refine ⟨_, _, run_cutRotation, fun e he => ?_, hcut, ?_⟩
  · rw [inserted_cut (Or.inl he)]
    exact note_readable
  · rintro ⟨n, s, n', s', h, h', hall⟩
    rw [Store.replayFiles_zero, Store.recover_openWal] at h h'
    obtain ⟨-, rfl⟩ := Prod.mk.inj (Option.some.inj h)
    obtain ⟨-, rfl⟩ := Prod.mk.inj (Option.some.inj h')
    have hfirst : (recover noteExt ⟨none, noteSegment, some []⟩).byId.lookup (note 0).id =
        some (note 0) := by
      unfold recover
      rw [hrecs]
      exact (lookup_note _ _).2 ⟨rfl, rfl⟩
    obtain ⟨z, hz⟩ := hall (note 0).id (note 0) hfirst
    have hempty : (recover noteExt ⟨none, none, some []⟩).byId.lookup (note 0).id = none := rfl
    rw [hempty] at hz
    cases hz

end Memlay

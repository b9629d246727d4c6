import Memlay.CrashRecovery

/-!
# Recovery gives the live store back

One caller: inserts, deletion requests and checkpoints one after the other, and a
crash between two of them or between two file steps of the last checkpoint.  A load
of the files then has exactly the live ids of the store.

Where a checkpoint has come to its end the snapshot supersedes `wal.log.old`, there
or not, and the records of `wal.log` start where the snapshot was taken or before
(`Chain.superseded`).  The rename of the next checkpoint keeps both, under another
name; its own snapshot is of the present index, and replaying the rotated segment
over it changes nothing (`Registers.replay_snapshot`).
-/

namespace Memlay

open Index (Shows Inv Agree Fields rules Slot)
open Registers (Board History Passes Sound)
open Store (Rec diskRecs segmentRecs snapshotRecs Whole recover)

/-- An operation, or a step of a checkpoint that goes on. -/
def Action.Proceeds : Action → Prop
  | .giveUp => False
  | .restart _ => False
  | _ => True

section
variable {x : Ext} {E : Event → Prop} {fields : Bytes32 → Event} {s s' : Sys} {b₀ b₁ b : Board Bytes32 Slot}

/-- The slots of the snapshot are on the way of the history in the two segments. -/
def Covered (x : Ext) (E : Event → Prop) (fields : Bytes32 → Event) (s : Sys) : Prop :=
  ∃ b₀ b₁ b, Chain x E fields b₀ b₁ b s ∧
    Passes (rules fields) b₀ (onBoard x s.store.files.walOld ++ onBoard x s.store.files.wal) b
      (holderOf fields (snapshotRecs x s.store.files.events))

theorem Chain.covered (h : Chain x E fields b₀ b₁ b s) (hsup : s.superseded = true) : Covered x E fields s :=
  ⟨b₀, b₁, b, h, (h.superseded hsup).prepend h.old⟩

theorem Covered.live (h : Covered x E fields s) (hF : Fields E fields) (hA : Agree E) (id : Bytes32) :
    (∃ y, (recover x s.store.files).byId.lookup id = some y) ↔ ∃ y, s.store.index.byId.lookup id = some y := by
  obtain ⟨b₀, b₁, b, hc, hpass⟩ := h
  have hboard : (Store.diskBoard fields x s.store.files).holder = b.holder := by
    rw [diskBoard_eq]
    exact Registers.replay_snapshot hc.sound hpass
  rw [(Store.shows_recover hF hA hc.recsIn).2.live, hc.shows.live, hboard]

/-! ## The steps of a checkpoint -/

/-- The segment the snapshot starts from is renamed; the one before is superseded. -/
theorem covered_rename (h : Chain x E fields b₀ b₁ b s) (hsup : s.superseded = true)
    (hstep : Sys.step x s .rename = some s') : Covered x E fields s' := by
  have hc := h.rename hstep
  have hpass := h.superseded hsup
  refine ⟨b₁, b, b, hc, ?_⟩
  obtain ⟨-, segment, hwal, rfl⟩ := Sys.step_rename hstep
  rw [hwal] at hpass
  show Passes _ _ (onBoard x (some segment) ++ onBoard x none) _ _
  rw [show onBoard x none = [] from rfl, List.append_nil]
  exact hpass

theorem Covered.reopen (h : Covered x E fields s) (hstep : Sys.step x s .reopen = some s') :
    Covered x E fields s' := by
  obtain ⟨b₀, b₁, b, hc, hpass⟩ := h
  refine ⟨b₀, b₁, b, hc.reopen hstep, ?_⟩
  obtain ⟨-, rfl⟩ := Sys.step_reopen hstep
  have hwal : onBoard x s.store.openWal.files.wal = onBoard x s.store.files.wal := by
    unfold onBoard
    show (segmentRecs x (some (s.store.files.wal.getD []))).map _ = _
    rw [Store.segmentRecs_getD]
  rw [show ({ s with store := s.store.openWal, phase := .rotated } : Sys).store.files.wal =
    s.store.openWal.files.wal from rfl, hwal]
  exact hpass

theorem Covered.collect (h : Covered x E fields s) (hF : Fields E fields) (hA : Agree E) {es : List Event}
    (hstep : Sys.step x s (.collect es) = some s') : Covered x E fields s' := by
  obtain ⟨b₀, b₁, b, hc, hpass⟩ := h
  refine ⟨b₀, b₁, b, hc.collect hF hA hstep, ?_⟩
  obtain ⟨-, -, rfl⟩ := Sys.step_collect hstep
  exact hpass

/-! ## The invariant -/

structure OnTrack (x : Ext) (E : Event → Prop) (fields : Bytes32 → Event) (s : Sys) : Prop where
  covered : Covered x E fields s
  /-- outside a checkpoint, and at its end, the snapshot supersedes `wal.log.old` -/
  superseded : s.phase = .idle ∨ s.phase = .written → s.superseded = true

/-- Operations extend the history at its end. -/
theorem OnTrack.logs (h : OnTrack x E fields s) {st' : Store}
    (hl : ∀ b, Shows fields s.store.index b → ∃ b', Store.Logs x E fields s.store b st' b') :
    OnTrack x E fields { s with store := st' } := by
  obtain ⟨⟨b₀, b₁, b, hc, hpass⟩, hsup⟩ := h
  obtain ⟨b', hlog⟩ := hl b hc.shows
  obtain ⟨b₁', hc'⟩ := hc.logs hlog
  obtain ⟨recs, happ, -, hhist⟩ := hlog.recs
  refine ⟨⟨b₀, b₁', b', hc', ?_⟩, hsup⟩
  have hrecs : onBoard x st'.files.walOld ++ onBoard x st'.files.wal =
      (onBoard x s.store.files.walOld ++ onBoard x s.store.files.wal) ++ recs.map Rec.onBoard := by
    unfold onBoard
    cases hh : s.store.handle with
    | wal =>
      obtain ⟨h1, h2⟩ := happ.onWal hh
      rw [h1, h2, List.map_append, List.append_assoc]
    | old =>
      obtain ⟨h1, h2⟩ := happ.onOld hh
      rw [h1, h2, (hc.stuck hh).1, List.map_append, List.append_assoc]
      simp [Store.segmentRecs_none]
  show Passes _ _ (onBoard x st'.files.walOld ++ onBoard x st'.files.wal) _
    (holderOf fields (snapshotRecs x st'.files.events))
  rw [hrecs, happ.events]
  exact hpass.append hhist

theorem OnTrack.step (h : OnTrack x E fields s) (hF : Fields E fields) (hA : Agree E)
    (hread : ∀ e, E e → e.Readable x) {a : Action} (hins : ∀ e, a = .insert e → E e) (ha : a.Proceeds)
    (hstep : Sys.step x s a = some s') : OnTrack x E fields s' := by
  obtain ⟨b₀, b₁, b, hc, -⟩ := h.covered
  cases a with
  | insert e =>
    obtain ⟨-, rfl⟩ := Sys.step_insert hstep
    have hE := hins e rfl
    exact h.logs fun b hb => Store.logs_insert hF hA hc.inv hb hc.wholeOld hc.wholeWal hE (hread e hE)
  | deletion ids coordinates author until_ =>
    obtain ⟨-, rfl⟩ := Sys.step_deletion hstep
    exact h.logs fun b hb => Store.logs_applyDeletion hc.inv hb hc.wholeOld hc.wholeWal ids coordinates author
      until_
  | rename =>
    obtain ⟨hidle, segment, -, hs'⟩ := Sys.step_rename hstep
    refine ⟨covered_rename hc (h.superseded (Or.inl hidle)) hstep, ?_⟩
    rw [hs']
    rintro (hp | hp) <;> cases hp
  | reopen =>
    refine ⟨h.covered.reopen hstep, ?_⟩
    obtain ⟨-, rfl⟩ := Sys.step_reopen hstep
    rintro (hp | hp) <;> cases hp
  | collect es =>
    refine ⟨h.covered.collect hF hA hstep, ?_⟩
    obtain ⟨-, -, rfl⟩ := Sys.step_collect hstep
    rintro (hp | hp) <;> cases hp
  | renameSnapshot =>
    have hsup : s'.superseded = true := by
      obtain ⟨es, -, rfl⟩ := Sys.step_renameSnapshot hstep
      rfl
    exact ⟨(hc.renameSnapshot hread hstep).covered hsup, fun _ => hsup⟩
  | removeOld ok =>
    obtain ⟨b₀', hc'⟩ := hc.removeOld hstep
    have hsup : s'.superseded = true := by
      obtain ⟨hw, rfl⟩ := Sys.step_removeOld hstep
      exact h.superseded (Or.inr hw)
    exact ⟨hc'.covered hsup, fun _ => hsup⟩
  | giveUp => exact absurd ha id
  | restart es => exact absurd ha id

theorem onTrack_init : OnTrack x E fields Sys.init := ⟨chain_init.covered rfl, fun _ => rfl⟩

/-- The run lemma. -/
theorem onTrack_run {as : List Action} (hF : Fields (Sys.Inserted as) fields) (hA : Agree (Sys.Inserted as))
    (hread : ∀ e, Sys.Inserted as e → e.Readable x) (hgo : ∀ a ∈ as, a.Proceeds)
    (hrun : Machine.run (Sys.step x) Sys.init as = some s) : OnTrack x (Sys.Inserted as) fields s := by
  refine Machine.run_invariant (C := fun _ a => a ∈ as) (I := OnTrack x (Sys.Inserted as) fields) ?_ as Sys.init s
    hrun (Machine.along_of_forall as Sys.init fun a ha _ => ha) onTrack_init
  intro u a u' hstep hmem hu
  exact hu.step hF hA hread (fun e he => by rw [he] at hmem; exact hmem) (hgo a hmem) hstep

end

/-- A crash in any state of a run of inserts, deletion requests and checkpoints, also
between the steps of a checkpoint: the next process has the live ids of the store. -/
theorem recovers_live (x : Ext) (as : List Action) (hA : Agree (Sys.Inserted as))
    (hread : ∀ e, Sys.Inserted as e → e.Readable x) (hgo : ∀ a ∈ as, a.Proceeds) (s : Sys)
    (hrun : Machine.run (Sys.step x) Sys.init as = some s) (es : List Event) :
    ∃ st, (Store.new s.store.files).loadFromDisk x 0 es = some st ∧
      ∀ id, (∃ y, st.index.byId.lookup id = some y) ↔ ∃ y, s.store.index.byId.lookup id = some y := by
  obtain ⟨fields, hF⟩ := Index.exists_fields hA
  have hlive := (onTrack_run hF hA hread hgo hrun).covered.live hF hA
  rw [Store.loadFromDisk_new]
  refine ⟨_, rfl, fun id => ?_⟩
  rw [← hlive]
  split <;> rfl

/-- A checkpoint cut behind its rotation: the note is in `wal.log.old` only, and comes back. -/
theorem recovers_live_cutRotation :
    ∃ s, Machine.run (Sys.step noteExt) Sys.init cutRotation = some s ∧
      ∃ st, (Store.new s.store.files).loadFromDisk noteExt 0 [note 0] = some st ∧
        (∀ id, (∃ y, st.index.byId.lookup id = some y) ↔ ∃ y, s.store.index.byId.lookup id = some y) ∧
        ∃ y, st.index.byId.lookup (note 0).id = some y := by
  have hA : Agree (Sys.Inserted cutRotation) := by
    intro a b ha hb _
    rw [inserted_cut (Or.inl ha), inserted_cut (Or.inl hb)]
    exact note_sameFields 0 0
  have hread : ∀ e, Sys.Inserted cutRotation e → e.Readable noteExt := by
    intro e he
    rw [inserted_cut (Or.inl he)]
    exact note_readable
  have hgo : ∀ a ∈ cutRotation, a.Proceeds := by
    intro a ha
    have hcases : a = .insert (note 0) ∨ a = .rename ∨ a = .reopen := by simpa [cutRotation] using ha
    rcases hcases with rfl | rfl | rfl <;> trivial
  obtain ⟨st, hload, hlive⟩ := recovers_live noteExt cutRotation hA hread hgo _ run_cutRotation [note 0]
  refine ⟨_, run_cutRotation, st, hload, hlive, (hlive _).2 ⟨note 0, ?_⟩⟩
  exact (lookup_note _ _).2 ⟨rfl, rfl⟩

end Memlay
